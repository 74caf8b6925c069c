import Dossier.Value.Printer
import Dossier.Value.Reader
import Dossier.Proofs.Shortest

-- The end of a value in a text is not in doubt, whatever follows it there.

namespace Dossier

open List

variable {cs r s : List Char}

-- Quoted texts

namespace Reader

theorem hexCode?_append {n : Nat} (h : hexCode? l = some (n, [])) : hexCode? (l ++ cs) = some (n, cs) := by
  rcases l with _ | ⟨a, _ | ⟨b, _ | ⟨c, _ | ⟨d, l⟩⟩⟩⟩
  case cons.cons.cons.cons =>
    simp only [hexCode?, cons_append, Option.bind_eq_bind, Option.bind_eq_some_iff] at h ⊢
    obtain ⟨a, ha, b, hb, c, hc, d, hd, h⟩ := h
    cases h
    exact ⟨a, ha, b, hb, c, hc, d, hd, rfl⟩
  all_goals cases h

theorem codePoint?_hexCode (h : c.toNat < 32) : codePoint? (hexCode c ++ cs) = some (c, cs) := by
  have hcode : ∀ n : Fin 32, hexCode? (hexCode (Char.ofNat n)) = some (n.val, []) := by decide +kernel
  have hread := hcode ⟨c.toNat, h⟩
  rw [Char.ofNat_toNat] at hread
  rw [codePoint?, hexCode?_append hread]
  simp only [Option.bind_eq_bind, Option.bind_some]
  rw [if_neg (by omega), if_neg (by omega), Char.ofNat_toNat]
  rfl

theorem string?_escapeChar {c : Char} : string? (n + 1) (escapeChar c ++ cs) acc = string? n cs (c :: acc) := by
  fun_cases escapeChar c
  case case8 h =>
    simp only [cons_append, string?, escape?, codePoint?_hexCode h]
    rfl
  case case9 hquote hslash _ _ _ _ _ h =>
    rw [singleton_append, string?, if_neg h]
    · exact hquote
    · exact hslash
  all_goals
    rename_i h
    rw [h]
    rfl

theorem string?_quoted {l : List Char} (hn : l.length < n) :
    string? n (l.flatMap escapeChar ++ '"' :: cs) acc = some (String.ofList (acc.reverse ++ l), cs) := by
  induction l generalizing n acc with
  | nil =>
    cases n with
    | zero => cases hn
    | succ n => simp [string?]
  | cons c l ih =>
    cases n with
    | zero => cases hn
    | succ n =>
      rw [flatMap_cons, append_assoc, string?_escapeChar, ih (by simpa using hn)]
      simp

end Reader

theorem quoted_append_inj {b : String} (h : (quoted a).toList ++ r = (quoted b).toList ++ s) : a = b ∧ r = s := by
  simp only [quoted, String.toList_ofList, cons_append, List.cons.injEq, true_and, append_assoc,
    nil_append] at h
  have hread : ∀ (t : String) (cs : List Char), t.toList.length < a.toList.length + b.toList.length + 1 →
      Reader.string? (a.toList.length + b.toList.length + 1) (t.toList.flatMap escapeChar ++ '"' :: cs) [] =
        some (t, cs) := by
    intro t cs ht
    rw [Reader.string?_quoted ht]
    simp
  have heq := hread a r (by omega)
  rw [h, hread b s (by omega)] at heq
  cases heq
  exact ⟨rfl, rfl⟩

-- Lists of texts

-- A value ends before these characters.
def Closes (cs : List Char) : Prop :=
  ∀ c ∈ cs.head?, c = ',' ∨ c = ']' ∨ c = '\x7d'

variable {α : Type} {f : α → List Char} {close : Char} {as bs : List α}

-- The element at the front of a text is known from the text.
def Decodes (f : α → List Char) (a : α) : Prop :=
  ∀ b r s, Closes r → Closes s → f a ++ r = f b ++ s → a = b ∧ r = s

def continued (close : Char) : List (List Char) → List Char
  | [] => [close]
  | t :: ts => ',' :: t ++ continued close ts

def listed (close : Char) : List (List Char) → List Char
  | [] => [close]
  | t :: ts => t ++ continued close ts

theorem closes_continued (hc : close = ']' ∨ close = '\x7d') : Closes (continued close ts ++ r) := by
  cases ts with
  | nil => simpa [continued, Closes] using .inr hc
  | cons t ts => simp [continued, Closes]

theorem continued_inj (hc : close = ']' ∨ close = '\x7d') (hf : ∀ a ∈ as, Decodes f a)
    (h : continued close (as.map f) ++ r = continued close (bs.map f) ++ s) : as = bs ∧ r = s := by
  have hcomma : close ≠ ',' := by rcases hc with rfl | rfl <;> decide
  induction as generalizing bs with
  | nil =>
    cases bs with
    | nil => simpa [continued] using h
    | cons b bs => simp [continued, hcomma] at h
  | cons a as ih =>
    cases bs with
    | nil => simp [continued, hcomma.symm] at h
    | cons b bs =>
      simp only [map_cons, continued, cons_append, List.cons.injEq, true_and, append_assoc] at h
      obtain ⟨rfl, hrest⟩ := hf a mem_cons_self _ _ _ (closes_continued hc) (closes_continued hc) h
      obtain ⟨rfl, rfl⟩ := ih (fun a ha => hf a (mem_cons_of_mem _ ha)) hrest
      exact ⟨rfl, rfl⟩

theorem listed_inj (hc : close = ']' ∨ close = '\x7d') (hf : ∀ a ∈ as, Decodes f a)
    (hlead : ∀ a, ∃ c cs, f a = c :: cs ∧ c ≠ close)
    (h : listed close (as.map f) ++ r = listed close (bs.map f) ++ s) : as = bs ∧ r = s := by
  cases as with
  | nil =>
    cases bs with
    | nil => simpa [listed] using h
    | cons b bs =>
      obtain ⟨c, cs, hb, hne⟩ := hlead b
      simp [listed, hb, hne.symm] at h
  | cons a as =>
    cases bs with
    | nil =>
      obtain ⟨c, cs, ha, hne⟩ := hlead a
      simp [listed, ha, hne] at h
    | cons b bs =>
      simp only [map_cons, listed, append_assoc] at h
      obtain ⟨rfl, hrest⟩ := hf a mem_cons_self _ _ _ (closes_continued hc) (closes_continued hc) h
      obtain ⟨rfl, rfl⟩ := continued_inj hc (fun a ha => hf a (mem_cons_of_mem _ ha)) hrest
      exact ⟨rfl, rfl⟩

theorem toList_intercalate_append (close : Char) (ts : List String) :
    (",".intercalate ts).toList ++ [close] = listed close (ts.map String.toList) := by
  cases ts with
  | nil => simp [listed]
  | cons t ts =>
    induction ts generalizing t with
    | nil => simp [listed, continued]
    | cons t' ts ih =>
      rw [String.intercalate_cons_cons, String.toList_append, String.toList_append, append_assoc, ih]
      simp [listed, continued]

namespace Value

variable {v w : Value}

def chars (v : Value) : List Char :=
  v.text.toList

-- What the first character of a text says about the value.
def leadType (c : Char) : String :=
  if c = 'n' then "null"
  else if c = 't' ∨ c = 'f' then "boolean"
  else if c = '"' then "string"
  else if c = '[' then "array"
  else if c = '\x7b' then "object"
  else "number"

theorem leadType_numeral {n : Numeral} (h : n.WellFormed) :
    ∃ c cs, n.spelled = c :: cs ∧ leadType c = "number" ∧ c ≠ ']' := by
  have hdigit : ∀ c : Char, c.isDigit → leadType c = "number" ∧ c ≠ ']' := by
    intro c hc
    have hne : ∀ d : Char, d.isDigit = false → c ≠ d := by
      rintro d hd rfl
      simp [hc] at hd
    simp [leadType, hne]
  cases hs : n.sign with
  | some c =>
    simp only [Numeral.spelled, hs, Option.toList_some, cons_append]
    rcases h.sign c hs with rfl | rfl
    · exact ⟨_, _, rfl, rfl, by decide⟩
    · exact ⟨_, _, rfl, rfl, by decide⟩
  | none =>
    obtain ⟨c, ds, hw⟩ := exists_cons_of_ne_nil h.whole.1
    simp only [Numeral.spelled, hs, hw, Option.toList_none, nil_append, cons_append]
    exact ⟨_, _, rfl, hdigit c (h.whole.2 c (by simp [hw]))⟩

theorem leadType_chars (v : Value) : ∃ c cs, v.chars = c :: cs ∧ leadType c = v.typeName ∧ c ≠ ']' := by
  cases v with
  | null => exact ⟨'n', _, rfl, rfl, by decide⟩
  | bool b =>
    cases b with
    | false => exact ⟨'f', _, rfl, rfl, by decide⟩
    | true => exact ⟨'t', _, rfl, rfl, by decide⟩
  | num n =>
    rw [chars, text, Number.text_spelled]
    exact leadType_numeral Number.numeral_wellFormed
  | str s =>
    rw [chars, text, quoted, String.toList_ofList]
    exact ⟨_, _, rfl, rfl, by decide⟩
  | arr items =>
    rw [chars, text, String.toList_append, String.toList_append]
    exact ⟨_, _, rfl, rfl, by decide⟩
  | obj fields =>
    rw [chars, text, String.toList_append, String.toList_append]
    exact ⟨_, _, rfl, rfl, by decide⟩

theorem typeName_eq_of_text (h : v.chars ++ r = w.chars ++ s) : v.typeName = w.typeName := by
  obtain ⟨c, cs, hv, hc, -⟩ := v.leadType_chars
  obtain ⟨d, ds, hw, hd, -⟩ := w.leadType_chars
  rw [hv, hw, cons_append, cons_append, List.cons.injEq] at h
  rw [← hc, ← hd, h.1]

theorem ends_of_closes (h : Closes cs) : Numeral.Ends cs := by
  intro c hc
  rcases h c hc with rfl | rfl | rfl <;> decide

theorem itemTexts_eq : itemTexts items = items.map text := by
  induction items with
  | nil => rfl
  | cons v items ih => rw [itemTexts, ih, map_cons]

def fieldText (e : String × Value) : List Char :=
  (quoted e.1).toList ++ ':' :: e.2.chars

theorem fieldTexts_eq : (fieldTexts fields).map String.toList = fields.map fieldText := by
  induction fields with
  | nil => rfl
  | cons e fields ih => simp [fieldTexts, ih, fieldText, chars]

theorem decodes_field (h : Decodes chars e.2) : Decodes fieldText e := by
  intro e' r s hr hs heq
  simp only [fieldText, append_assoc, cons_append] at heq
  obtain ⟨hk, heq⟩ := quoted_append_inj heq
  rw [List.cons.injEq] at heq
  obtain ⟨hv, rfl⟩ := h _ _ _ hr hs heq.2
  exact ⟨Prod.ext hk hv, rfl⟩

theorem chars_arr : (arr items).chars = '[' :: listed ']' (items.map chars) := by
  rw [chars, text, itemTexts_eq, String.append_assoc, String.toList_append, String.toList_append]
  have h := toList_intercalate_append ']' (items.map text)
  rw [map_map] at h
  exact congrArg ('[' :: ·) h

theorem chars_obj : (obj fields).chars = '\x7b' :: listed '\x7d' (fields.map fieldText) := by
  rw [chars, text, String.append_assoc, String.toList_append, String.toList_append, ← fieldTexts_eq]
  exact congrArg ('\x7b' :: ·) (toList_intercalate_append _ _)

theorem lead_chars (v : Value) : ∃ c cs, v.chars = c :: cs ∧ c ≠ ']' := by
  obtain ⟨c, cs, hv, -, hne⟩ := v.leadType_chars
  exact ⟨c, cs, hv, hne⟩

theorem lead_field (e : String × Value) : ∃ c cs, fieldText e = c :: cs ∧ c ≠ '\x7d' := by
  rw [fieldText, quoted, String.toList_ofList]
  exact ⟨_, _, rfl, by decide⟩

mutual

theorem decodes : (v : Value) → Decodes chars v
  | .null => by
    intro w r s hr hs h
    cases w with
    | null => exact ⟨rfl, append_cancel_left h⟩
    | _ => exact absurd (typeName_eq_of_text h) (by simp [typeName])
  | .bool b => by
    intro w r s hr hs h
    cases w with
    | bool b' =>
      cases b <;> cases b'
      · exact ⟨rfl, append_cancel_left h⟩
      · cases h
      · cases h
      · exact ⟨rfl, append_cancel_left h⟩
    | _ => exact absurd (typeName_eq_of_text h) (by simp [typeName])
  | .num n => by
    intro w r s hr hs h
    cases w with
    | num n' =>
      rw [chars, chars, text, text] at h
      have hread := Number.scan?_text (n := n) (ends_of_closes hr)
      rw [h, Number.scan?_text (ends_of_closes hs), Option.some.injEq, Prod.mk.injEq] at hread
      exact ⟨congrArg num (Number.numeral_injective hread.1.symm), hread.2.symm⟩
    | _ => exact absurd (typeName_eq_of_text h) (by simp [typeName])
  | .str a => by
    intro w r s hr hs h
    cases w with
    | str b =>
      rw [chars, chars, text, text] at h
      obtain ⟨rfl, rfl⟩ := quoted_append_inj h
      exact ⟨rfl, rfl⟩
    | _ => exact absurd (typeName_eq_of_text h) (by simp [typeName])
  | .arr items => by
    intro w r s hr hs h
    cases w with
    | arr items' =>
      simp only [chars_arr, cons_append, List.cons.injEq, true_and] at h
      obtain ⟨rfl, rfl⟩ := listed_inj (.inl rfl) (decodes_items items) lead_chars h
      exact ⟨rfl, rfl⟩
    | _ => exact absurd (typeName_eq_of_text h) (by simp [typeName])
  | .obj fields => by
    intro w r s hr hs h
    cases w with
    | obj fields' =>
      simp only [chars_obj, cons_append, List.cons.injEq, true_and] at h
      obtain ⟨rfl, rfl⟩ := listed_inj (.inr rfl) (decodes_fields fields) lead_field h
      exact ⟨rfl, rfl⟩
    | _ => exact absurd (typeName_eq_of_text h) (by simp [typeName])

theorem decodes_items : (items : List Value) → ∀ v ∈ items, Decodes chars v
  | [] => by simp
  | v :: items => forall_mem_cons.mpr ⟨decodes v, decodes_items items⟩

theorem decodes_fields : (fields : List (String × Value)) → ∀ e ∈ fields, Decodes fieldText e
  | [] => by simp
  | (_, v) :: fields => forall_mem_cons.mpr ⟨decodes_field (decodes v), decodes_fields fields⟩

end

theorem text_inj : v.text = w.text ↔ v = w := by
  refine ⟨fun h => ?_, fun h => by rw [h]⟩
  refine (decodes v w [] [] (by simp [Closes]) (by simp [Closes]) ?_).1
  rw [chars, chars, h]

end Value

end Dossier
