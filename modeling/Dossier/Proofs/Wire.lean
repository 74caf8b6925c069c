import Dossier.Proofs.OrdMap
import Dossier.Wire

-- A change and its fields share one object, and each key in it is looked up by itself.

namespace Dossier

namespace Entries

variable {κ : Type} [Ord κ] [DecidableEq κ] [Std.LawfulEqOrd κ]
variable {l : List (κ × α)}

theorem get?_foldl_insert :
    get? k (l.foldl (fun es e => insert e.1 e.2 es) es) = (l.reverse.lookup k).or (get? k es) := by
  induction l generalizing es with
  | nil => rfl
  | cons e l ih =>
    obtain ⟨k', a⟩ := e
    rw [List.foldl_cons, ih, List.reverse_cons, List.lookup_append, Option.or_assoc]
    congr 1
    by_cases hk : k' = k
    · subst hk
      simp
    · have hb : (k == k') = false := beq_false_of_ne (Ne.symm hk)
      simp [get?_insert_ne hk, List.lookup_cons, hb]

theorem get?_ofList : get? k (ofList l) = l.reverse.lookup k := by
  rw [ofList, get?_foldl_insert]
  simp [get?]

end Entries

theorem Value.field?_ofFields : (Value.ofFields l).field? k = l.reverse.lookup k :=
  Entries.get?_ofList

theorem TypeTag.ofValue?_toValue (t : TypeTag) : TypeTag.ofValue? t.toValue = some t :=
  t.ofLabel?_label

namespace Change

variable {c : Change}

-- The fields of a change, in the order in which `toValue` lists them.
def written (c : Change) : List (String × Value) :=
  ("path", c.path.toValue) :: c.op.fields ++ (c.fieldType.map fun t => ("field_type", t.toValue)).toList

theorem toValue_eq : c.toValue = .ofFields c.written := by
  obtain ⟨path, op, fieldType⟩ := c
  cases fieldType <;> rfl

theorem field?_toValue : c.toValue.field? k = c.written.reverse.lookup k := by
  rw [toValue_eq, Value.field?_ofFields]

theorem path_toValue : c.toValue.field? "path" = some c.path.toValue := by
  rw [field?_toValue]
  obtain ⟨path, op, fieldType⟩ := c
  cases op <;> cases fieldType <;> rfl

theorem op_toValue : ChangeOp.ofValue? c.toValue = some c.op := by
  obtain ⟨path, op, fieldType⟩ := c
  simp only [ChangeOp.ofValue?, ChangeOp.values?, field?_toValue]
  cases op <;> cases fieldType <;> rfl

theorem fieldType?_toValue : fieldType? c.toValue = some c.fieldType := by
  obtain ⟨path, op, fieldType⟩ := c
  simp only [fieldType?, field?_toValue]
  cases fieldType with
  | none => cases op <;> rfl
  | some t =>
    have ht := congrArg (Option.map some) t.ofValue?_toValue
    cases op <;> exact ht

theorem ofValue?_toValue (c : Change) : ofValue? c.toValue = some c := by
  simp [ofValue?, path_toValue, Path.ofValue?_toValue, op_toValue, fieldType?_toValue]

-- What is written is read back as it was, whatever its path, its kind of write and its values; and a change read
-- from any value that is accepted is the one that its own written form is read as.
theorem read_back : (∀ c : Change, ofValue? c.toValue = some c) ∧
    ∀ (v : Value) (c : Change), ofValue? v = some c → ofValue? c.toValue = ofValue? v :=
  ⟨ofValue?_toValue, fun _ c h => (ofValue?_toValue c).trans h.symm⟩

-- The kind of write by its position, the tag as a key over null, an unknown field, and the key "0"
-- beside the index 0.
theorem read_back_loose :
    let v := Value.ofFields [("path", .arr [.str "0", .int 0]), ("op", .int 1),
      ("field_type", .obj [("string", .null)]), ("note", .null)]
    let c : Change := { path := [.key "0", .index 0], op := .unset, fieldType := some .string }
    ofValue? v = some c ∧ ofValue? c.toValue = ofValue? v :=
  ⟨by rfl, read_back.2 _ _ (by rfl)⟩

end Change

end Dossier
