/-! Sets of flags, kept as the bits of a word. -/

namespace MemLint.Settings

structure Flags (w : Nat) where
  bits : BitVec w
  deriving DecidableEq, Repr

namespace Flags

variable {w : Nat}

def empty : Flags w := ⟨0#w⟩

def enable (s : Flags w) (flag : BitVec w) : Flags w := ⟨s.bits ||| flag⟩

def disable (s : Flags w) (flag : BitVec w) : Flags w := ⟨s.bits &&& ~~~flag⟩

/-- The flag is switched on or off. -/
def set (s : Flags w) (flag : BitVec w) (on : Bool) : Flags w :=
  if on then s.enable flag else s.disable flag

/-- Some bit of the flag is set, so a flag without bits is never enabled. -/
def enabled (s : Flags w) (flag : BitVec w) : Bool := s.bits &&& flag != 0#w

def isEmpty (s : Flags w) : Bool := s.bits == 0#w

def ofList (flags : List (BitVec w)) : Flags w := flags.foldl enable empty

end Flags

end MemLint.Settings
