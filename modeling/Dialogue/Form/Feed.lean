import Dialogue.Session.Report

/-!
# Feeds

The notices that an observer has yet to read. A feed has room for a fixed number of them, a power
of two; when it is full, the oldest one gives way and is counted as missed.
-/

namespace Dialogue

structure Feed where
  room : Nat
  unread : List Notice
  missed : Nat
  deriving Repr

namespace Feed

def ofCapacity (capacity : Nat) : Feed :=
  ⟨capacity.nextPowerOfTwo, [], 0⟩

def push (f : Feed) (notice : Notice) : Feed :=
  if f.unread.length < f.room then { f with unread := f.unread ++ [notice] }
  else { f with unread := f.unread.tail ++ [notice], missed := f.missed + 1 }

def clear (f : Feed) : Feed :=
  { f with unread := [], missed := 0 }

end Feed

end Dialogue
