-- The characters of the Unicode property White_Space, and the removal of leading and trailing ones.

namespace Dossier

def isBlank (c : Char) : Bool :=
  let n := c.toNat
  (0x09 ≤ n && n ≤ 0x0D) || n == 0x20 || n == 0x85 || n == 0xA0 || n == 0x1680
    || (0x2000 ≤ n && n ≤ 0x200A) || n == 0x2028 || n == 0x2029 || n == 0x202F || n == 0x205F
    || n == 0x3000

def trimChars (cs : List Char) : List Char :=
  ((cs.dropWhile isBlank).reverse.dropWhile isBlank).reverse

theorem trimChars_ne_nil (hc : cs.head? = some c) (h : isBlank c = false) : trimChars cs ≠ [] := by
  obtain ⟨cs, rfl⟩ := List.head?_eq_some_iff.mp hc
  rw [trimChars, List.dropWhile_cons_of_neg (by simp [h]), List.reverse_cons, List.dropWhile_append]
  split <;> simp [h]

def trim (s : String) : String :=
  String.ofList (trimChars s.toList)

end Dossier
