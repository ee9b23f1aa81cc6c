/-!
# StackScript.SlotPool — numbers for local variables

A pool hands out the smallest number that nobody holds, so that no more numbers are in use than
there are locals alive at one time.  Its numbers are of any type that counts.  With those of 32 bits
the next fresh number after the last one is zero again, so a pool is good for fewer than `2 ^ 32`
numbers held at one time.  A tree is resolved with natural numbers, which makes no difference as
long as fewer variables than that are alive at one place.
-/

namespace StackScript

/-- A type of numbers that a pool hands out. -/
class SlotNumber (ι : Type) where
  /-- how many numbers come before this one -/
  toNat : ι → Nat

instance : SlotNumber Nat := ⟨fun n => n⟩

instance : SlotNumber UInt32 := ⟨UInt32.toNat⟩

/-- Numbers below `next` are held, except those that were given back. -/
structure SlotPool (ι : Type) where
  /-- the numbers given back, in ascending order -/
  released : List ι
  next : ι
deriving DecidableEq, Repr, Inhabited

namespace SlotPool

variable {ι : Type}

/-- Nothing is held. -/
def empty [OfNat ι 0] : SlotPool ι := ⟨[], 0⟩

/-- Hands out the smallest number given back, or a fresh one. -/
def allocate [Add ι] [OfNat ι 1] (p : SlotPool ι) : ι × SlotPool ι :=
  match p.released with
  | [] => (p.next, ⟨[], p.next + 1⟩)
  | slot :: rest => (slot, ⟨rest, p.next⟩)

/-- How many numbers are held. -/
def live [SlotNumber ι] (p : SlotPool ι) : Nat := SlotNumber.toNat p.next - p.released.length

/-- How many different numbers have been handed out. -/
def highWater (p : SlotPool ι) : ι := p.next

variable [LT ι] [DecidableLT ι] [DecidableEq ι]

/-- Puts a number into an ascending list that may have it already. -/
def insert (slot : ι) : List ι → List ι
  | [] => [slot]
  | n :: ns =>
    if slot < n then slot :: n :: ns
    else if slot = n then n :: ns
    else n :: insert slot ns

/-- Takes a number back. -/
def release (p : SlotPool ι) (slot : ι) : SlotPool ι := ⟨insert slot p.released, p.next⟩

end SlotPool

end StackScript
