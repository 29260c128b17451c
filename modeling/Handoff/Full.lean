/-! The refusal of a queue without room. -/
namespace Handoff

/-- There was no room, and the value comes back to the caller. This is no
fault: whether to try again is for the caller to decide. -/
structure Full (α : Type) where
  value : α
  deriving DecidableEq

namespace Full

variable {α : Type}

def message (_ : Full α) : String := "queue is full"

/-- The refusal, as structured text. The value is not shown: it need not have
a text. -/
def describe (_ : Full α) : String := "Full(..)"

end Full
end Handoff
