/-! Indices and slot positions. Indices only grow. The slot of an index is found
by masking, which needs no division because chunk lengths are powers of two.

The indices of a chain count elements twice: their low bit is not part of the
count but marks that a producer is linking a chunk at this index. -/
namespace Handoff.Index

def bit (n word : Nat) : Bool := word &&& (1 <<< n) != 0

def distance (producer consumer : Nat) : Nat := producer - consumer

def slotOf (index size : Nat) : Nat := index &&& (size - 1)

/-- The mask of a chunk of `size` slots, for doubled indices. -/
def maskOf (size : Nat) : Nat := (size - 1) <<< 1

def sizeOfMask (mask : Nat) : Nat := (mask >>> 1) + 1

/-- The slot of a doubled index. Its low bit makes no difference. -/
def position (index mask : Nat) : Nat := (index &&& mask) >>> 1

/-- Whether a producer is linking a chunk at this doubled index. -/
def linking (index : Nat) : Bool := bit 0 index

end Handoff.Index
