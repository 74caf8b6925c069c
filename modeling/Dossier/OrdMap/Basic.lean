import Dossier.OrdMap.Entries

-- Finite maps as entry lists in strict key order. The order is part of the type, so two maps with
-- the same entries are equal and every walk over a map is in key order.

namespace Dossier

structure OrdMap (κ α : Type) [Ord κ] where
  entries : List (κ × α)
  sorted  : Entries.Sorted entries

abbrev OrdSet (κ : Type) [Ord κ] := OrdMap κ Unit

namespace OrdMap

variable {κ α : Type} [Ord κ]

@[ext]
theorem ext {m₁ m₂ : OrdMap κ α} (h : m₁.entries = m₂.entries) : m₁ = m₂ := by
  cases m₁; cases m₂; simp_all

instance [DecidableEq κ] [DecidableEq α] : DecidableEq (OrdMap κ α) := fun m₁ m₂ =>
  if h : m₁.entries = m₂.entries then isTrue (ext h) else isFalse (fun e => h (e ▸ rfl))

def empty : OrdMap κ α := ⟨[], .nil⟩

instance : EmptyCollection (OrdMap κ α) := ⟨empty⟩

instance : Inhabited (OrdMap κ α) := ⟨empty⟩

def isEmpty (m : OrdMap κ α) : Bool :=
  m.entries.isEmpty

def size (m : OrdMap κ α) : Nat :=
  m.entries.length

def keys (m : OrdMap κ α) : List κ :=
  m.entries.map (·.1)

def values (m : OrdMap κ α) : List α :=
  m.entries.map (·.2)

def get? (m : OrdMap κ α) (k : κ) : Option α :=
  Entries.get? k m.entries

def contains (m : OrdMap κ α) (k : κ) : Bool :=
  Entries.contains k m.entries

def erase (m : OrdMap κ α) (k : κ) : OrdMap κ α :=
  ⟨Entries.erase k m.entries, Entries.erase_sorted m.sorted⟩

def filter (m : OrdMap κ α) (p : κ → α → Bool) : OrdMap κ α :=
  ⟨m.entries.filter (fun e => p e.1 e.2), Entries.filter_sorted m.sorted⟩

def any (m : OrdMap κ α) (p : κ → α → Bool) : Bool :=
  m.entries.any (fun e => p e.1 e.2)

variable [Std.TransOrd κ]

def insert (m : OrdMap κ α) (k : κ) (a : α) : OrdMap κ α :=
  ⟨Entries.insert k a m.entries, Entries.insert_sorted m.sorted⟩

def insertIfNew (m : OrdMap κ α) (k : κ) (a : α) : OrdMap κ α :=
  if m.contains k then m else m.insert k a

def ofList (l : List (κ × α)) : OrdMap κ α :=
  ⟨Entries.ofList l, Entries.ofList_sorted l⟩

end OrdMap

namespace OrdSet

variable {κ : Type} [Ord κ] [Std.TransOrd κ]

def add (s : OrdSet κ) (k : κ) : OrdSet κ :=
  OrdMap.insert s k ()

def ofKeys (ks : List κ) : OrdSet κ :=
  ks.foldl add ∅

end OrdSet
end Dossier
