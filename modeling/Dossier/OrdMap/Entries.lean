-- A list of key-value pairs read as a finite map: the first entry with a key counts. Insertion
-- keeps the position of a key that is present and otherwise goes before the first greater key, so
-- that strict key order is kept.

namespace Dossier

variable {κ α : Type} [Ord κ]

namespace Entries

def get? (k : κ) : List (κ × α) → Option α
  | [] => none
  | (k', a) :: es => if compare k k' = .eq then some a else get? k es

def contains (k : κ) (es : List (κ × α)) : Bool :=
  (get? k es).isSome

def replace (k : κ) (a : α) : List (κ × α) → List (κ × α)
  | [] => []
  | (k', a') :: es => if compare k k' = .eq then (k', a) :: es else (k', a') :: replace k a es

def place (k : κ) (a : α) : List (κ × α) → List (κ × α)
  | [] => [(k, a)]
  | (k', a') :: es => if compare k k' = .lt then (k, a) :: (k', a') :: es else (k', a') :: place k a es

def insert (k : κ) (a : α) (es : List (κ × α)) : List (κ × α) :=
  if contains k es then replace k a es else place k a es

def erase (k : κ) : List (κ × α) → List (κ × α)
  | [] => []
  | (k', a') :: es => if compare k k' = .eq then es else (k', a') :: erase k es

-- Later entries win over earlier ones with the same key.
def ofList (l : List (κ × α)) : List (κ × α) :=
  l.foldl (fun es e => insert e.1 e.2 es) []

-- Strict key order, which also rules out repeated keys.
def Sorted (es : List (κ × α)) : Prop :=
  es.Pairwise (fun a b => compare a.1 b.1 = .lt)

variable {es : List (κ × α)} {k k' : κ} {a : α}

theorem mem_replace {e : κ × α} (h : e ∈ replace k a es) : ∃ e' ∈ es, e'.1 = e.1 := by
  induction es with
  | nil => simp [replace] at h
  | cons hd tl ih =>
    simp only [replace] at h
    split at h
    all_goals rcases List.mem_cons.mp h with rfl | h
    · exact ⟨hd, by simp⟩
    · exact ⟨e, by simp [h]⟩
    · exact ⟨hd, by simp⟩
    · have ⟨e', he, hk⟩ := ih h
      exact ⟨e', by simp [he], hk⟩

theorem replace_sorted (h : Sorted es) : Sorted (replace k a es) := by
  induction es with
  | nil => exact h
  | cons hd tl ih =>
    have ⟨hh, ht⟩ := List.pairwise_cons.mp h
    simp only [replace]
    split
    · exact List.pairwise_cons.mpr ⟨hh, ht⟩
    · refine List.pairwise_cons.mpr ⟨fun e he => ?_, ih ht⟩
      have ⟨e', he', hk⟩ := mem_replace he
      exact hk ▸ hh e' he'

theorem mem_place {e : κ × α} : e ∈ place k a es ↔ e = (k, a) ∨ e ∈ es := by
  induction es with
  | nil => simp [place]
  | cons hd tl ih =>
    simp only [place]
    split
    · simp
    · simp only [List.mem_cons, ih]
      exact or_left_comm

theorem erase_sublist (k : κ) (es : List (κ × α)) : (erase k es).Sublist es := by
  induction es with
  | nil => exact .slnil
  | cons hd tl ih =>
    simp only [erase]
    split
    · exact List.sublist_cons_self hd tl
    · exact ih.cons_cons hd

theorem erase_sorted (h : Sorted es) : Sorted (erase k es) :=
  h.sublist (erase_sublist k es)

theorem filter_sorted {p : κ × α → Bool} (h : Sorted es) : Sorted (es.filter p) :=
  h.filter p

variable [Std.TransOrd κ]

theorem place_sorted (h : Sorted es) (hc : contains k es = false) : Sorted (place k a es) := by
  induction es with
  | nil => simp [place, Sorted]
  | cons hd tl ih =>
    have ⟨hh, ht⟩ := List.pairwise_cons.mp h
    simp only [contains, get?] at hc
    split at hc
    · simp at hc
    · case isFalse hne =>
      simp only [place]
      split
      · case isTrue hlt =>
        refine List.pairwise_cons.mpr ⟨fun e he => ?_, h⟩
        rcases List.mem_cons.mp he with rfl | he
        · exact hlt
        · exact Std.TransCmp.lt_trans hlt (hh e he)
      · case isFalse hnlt =>
        refine List.pairwise_cons.mpr ⟨fun e he => ?_, ih ht hc⟩
        rcases mem_place.mp he with rfl | he
        · have hg : compare k hd.1 = .gt := by
            cases hcmp : compare k hd.1 <;> simp_all
          exact Std.OrientedCmp.lt_of_gt hg
        · exact hh e he

theorem insert_sorted (h : Sorted es) : Sorted (insert k a es) := by
  simp only [insert]
  split
  · exact replace_sorted h
  · case isFalse hc => exact place_sorted h (by simpa using hc)

theorem ofList_sorted (l : List (κ × α)) : Sorted (ofList l) := by
  suffices ∀ es : List (κ × α), Sorted es →
      Sorted (l.foldl (fun es e => insert e.1 e.2 es) es) from this [] .nil
  induction l with
  | nil => exact fun _ h => h
  | cons e l ih => exact fun es h => ih _ (insert_sorted h)

omit [Std.TransOrd κ]
variable [Std.LawfulEqOrd κ]

theorem compare_ne_eq (h : k ≠ k') : compare k' k ≠ .eq :=
  fun hc => h (Std.LawfulEqOrd.eq_of_compare hc).symm

omit [Std.LawfulEqOrd κ] in
theorem get?_replace_self (h : contains k es) : get? k (replace k a es) = some a := by
  induction es with
  | nil => simp [contains, get?] at h
  | cons hd tl ih =>
    simp only [replace]
    split
    · case isTrue hk => simp [get?, hk]
    · case isFalse hk =>
      simp only [contains, get?, hk, if_false] at h
      simp [get?, hk, ih h]

theorem get?_replace_ne (h : k ≠ k') : get? k' (replace k a es) = get? k' es := by
  induction es with
  | nil => rfl
  | cons hd tl ih =>
    simp only [replace]
    split
    · case isTrue hk =>
      have hn := compare_ne_eq h
      simp [get?, ← Std.LawfulEqOrd.eq_of_compare hk, hn]
    · simp [get?, ih]

theorem get?_place_self (h : contains k es = false) : get? k (place k a es) = some a := by
  induction es with
  | nil => simp [place, get?]
  | cons hd tl ih =>
    simp only [contains, get?] at h
    split at h
    · simp at h
    · case isFalse hk =>
      simp only [place]
      split
      · simp [get?]
      · simp [get?, hk, ih h]

theorem get?_place_ne (h : k ≠ k') : get? k' (place k a es) = get? k' es := by
  have hn := compare_ne_eq h
  induction es with
  | nil => simp [place, get?, hn]
  | cons hd tl ih =>
    simp only [place]
    split
    · simp [get?, hn]
    · simp [get?, ih]

@[simp] theorem get?_insert_self : get? k (insert k a es) = some a := by
  simp only [insert]
  split
  · case isTrue h => exact get?_replace_self h
  · case isFalse h => exact get?_place_self (by simpa using h)

theorem get?_insert_ne (h : k ≠ k') : get? k' (insert k a es) = get? k' es := by
  simp only [insert]
  split
  · exact get?_replace_ne h
  · exact get?_place_ne h

theorem get?_erase_ne (h : k ≠ k') : get? k' (erase k es) = get? k' es := by
  induction es with
  | nil => rfl
  | cons hd tl ih =>
    simp only [erase]
    split
    · case isTrue hk =>
      have hn := compare_ne_eq h
      simp [get?, ← Std.LawfulEqOrd.eq_of_compare hk, hn]
    · simp [get?, ih]

end Entries
end Dossier
