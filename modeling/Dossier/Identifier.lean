import Dossier.Text.Blank
import Dossier.Value.Basic

-- Names are taken from a supply one after the other. All that is assumed of a supply is that no two
-- of its names are the same.

namespace Dossier

structure Supply (α : Type) where
  name     : Nat → α
  distinct : Function.Injective name
  used     : Nat := 0

namespace Supply

def numbers : Supply Nat where
  name := id
  distinct _ _ h := h

variable {s : Supply α}

def next (s : Supply α) : α :=
  s.name s.used

def rest (s : Supply α) : Supply α :=
  { s with used := s.used + 1 }

def Fresh (s : Supply α) (a : α) : Prop :=
  ∃ n, s.used ≤ n ∧ s.name n = a

theorem fresh_next : s.Fresh s.next :=
  ⟨s.used, Nat.le_refl _, rfl⟩

theorem Fresh.of_rest (h : s.rest.Fresh a) : s.Fresh a := by
  obtain ⟨n, hn, ha⟩ := h
  exact ⟨n, Nat.le_of_succ_le hn, ha⟩

theorem Fresh.next_ne (h : s.rest.Fresh a) : s.next ≠ a := by
  obtain ⟨n, hn, rfl⟩ := h
  exact fun he => Nat.ne_of_lt hn (s.distinct he)

end Supply

-- The identifiers of new documents, none of which is blank.
structure IdSupply extends Supply String where
  inked : ∀ n, trimChars (name n).toList ≠ []

namespace IdSupply

def fresh (s : IdSupply) : Value × IdSupply :=
  (.str s.next, { s with used := s.used + 1 })

-- A number, written into the last group of the usual five.
def text (n : Nat) : String :=
  let ds := Nat.toDigits 10 n
  "00000000-0000-4000-8000-" ++ String.ofList (List.replicate (12 - ds.length) '0' ++ ds)

theorem text_injective : Function.Injective text := by
  intro m n h
  have hdigits := congrArg (Nat.ofDigitChars 10 · 0) (String.ofList_inj.mp ((String.append_right_inj _).mp h))
  simpa [Nat.ofDigitChars_append, Nat.ofDigitChars_replicate_zero, Nat.ofDigitChars_ten_toDigits] using hdigits

theorem trimChars_text (n : Nat) : trimChars (text n).toList ≠ [] := by
  obtain ⟨t, ht⟩ : ∃ t, text n = "00000000-0000-4000-8000-" ++ t := ⟨_, rfl⟩
  refine trimChars_ne_nil (c := '0') ?_ rfl
  rw [ht, String.toList_append, List.head?_append]
  simp

def counter : IdSupply where
  name := text
  distinct := text_injective
  inked := trimChars_text

end IdSupply
end Dossier
