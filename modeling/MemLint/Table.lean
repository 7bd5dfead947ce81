/-! Tables from names to values. A table is seen through `get?`; the lemmas say what each operation
does to it. -/

namespace MemLint

structure Table (α : Type) where
  entries : List (String × α)
  deriving Repr

namespace Table

variable {α : Type}

/-- The value of the first entry for a name. -/
def find? (name : String) : List (String × α) → Option α
  | [] => none
  | (n, a) :: es => if name = n then some a else find? name es

def empty : Table α := ⟨[]⟩

def get? (t : Table α) (name : String) : Option α := find? name t.entries

def erase (t : Table α) (name : String) : Table α := ⟨t.entries.filter fun e => name != e.1⟩

def set (t : Table α) (name : String) (a : α) : Table α := ⟨(name, a) :: (t.erase name).entries⟩

@[simp] theorem get?_empty (name : String) : (empty : Table α).get? name = none := rfl

theorem find?_filter_ne (es : List (String × α)) (name other : String) :
    find? other (es.filter fun e => name != e.1) =
      if other = name then none else find? other es := by
  induction es with
  | nil => simp [find?]
  | cons e es ih =>
    by_cases hn : name = e.1 <;> by_cases ho : other = e.1 <;> grind [find?]

@[simp] theorem get?_erase (t : Table α) (name other : String) :
    (t.erase name).get? other = if other = name then none else t.get? other :=
  find?_filter_ne t.entries name other

@[simp] theorem get?_set (t : Table α) (name other : String) (a : α) :
    (t.set name a).get? other = if other = name then some a else t.get? other := by
  have := get?_erase t name other
  grind [get?, set, find?]

end Table

end MemLint
