import SharedConfig.Proofs.Dictionary
import SharedConfig.Proofs.Run.Order

/-!
# SharedConfig.Proofs.Run.Variables

The variables of a document, one by one and all together.

Keys are looked up by their texts.  Of several entries with keys of one text the first one is looked
up, and the last one that is a text is listed; so the two agree on the keys that stand once, and need
not on the others.

* `mem_envVariables_iff`, `envValue_eq_ok_iff`: what is listed, and what is looked up.
* `variables_agree`: both in every document.
* `variables_disagree`: a key that stands twice.
-/

namespace SharedConfig

namespace Node

/-- The values of all entries whose keys have a text, in the order of the document. -/
def valuesUnder (key : String) (n : Node) : List Node :=
  (n.asMapping.getD []).filterMap fun e => if e.1.text = key then some e.2 else none

/-- A look-up finds the first of them. -/
theorem child?_eq_head?_valuesUnder (key : String) (n : Node) :
    n.child? key = (n.valuesUnder key).head? := by
  unfold child? valuesUnder
  cases n.asMapping with
  | none => rfl
  | some m =>
    rw [Option.getD_some]
    dsimp only
    induction m with
    | nil => rfl
    | cons e m ih =>
      obtain ⟨k, v⟩ := e
      by_cases hk : k.text = key
      · simp [Mapping.get?_cons, hk]
      · simp [Mapping.get?_cons, hk, ih]

def variableNodes (key : String) (root : Node) : List Node :=
  match root.at? ["clientOptions", "env"] with
  | some env => env.valuesUnder key
  | none => []

end Node

open Node

def textEntries (m : Mapping) : List (String × String) :=
  m.filterMap fun (k, v) => v.asText.map fun s => (k.text, s)

theorem valuesOf_textEntries (m : Mapping) (key : String) :
    Dictionary.valuesOf key (textEntries m) =
      ((Node.mapping m).valuesUnder key).filterMap asText := by
  rw [Dictionary.valuesOf, textEntries, valuesUnder, List.filterMap_filterMap,
    List.filterMap_filterMap]
  refine List.filterMap_congr fun e _ => ?_
  obtain ⟨k, v⟩ := e
  by_cases hk : k.text = key
  · cases ht : v.asText <;> simp [hk, ht]
  · cases ht : v.asText <;> simp [hk, ht]

theorem sorted_envVariables (root : Node) : (envVariables root).Sorted := by
  rw [envVariables_eq]
  cases (root.at? ["clientOptions", "env"]).bind asMapping with
  | none => exact .nil
  | some m => exact Dictionary.sorted_ofList _

/-- Of the texts of a variable the last one is listed. -/
theorem mem_envVariables_iff {root : Node} {key value : String} :
    (key, value) ∈ envVariables root ↔
      ((root.variableNodes key).filterMap asText).getLast? = some value := by
  rw [envVariables_eq, variableNodes]
  cases root.at? ["clientOptions", "env"] with
  | none => simp
  | some env =>
    dsimp only [Option.bind_some]
    rw [valuesUnder]
    cases env.asMapping with
    | none => simp
    | some m =>
      have hlast := @Dictionary.mem_ofList _ key value (textEntries m)
      rw [valuesOf_textEntries] at hlast
      exact hlast

/-- Of the values of a variable the first one is looked up. -/
theorem envValue_eq_ok_iff {root : Node} {key value : String} :
    envValue key root = .ok value ↔ (root.variableNodes key).head?.bind asText = some value := by
  have hread : root.getScalar (envPath key) = (root.variableNodes key).head?.bind asText := by
    rw [envPath, getScalar_of (List.cons_ne_nil _ _), variableNodes]
    have hkeys : ["clientOptions", "env", key] = ["clientOptions", "env"] ++ [key] := rfl
    rw [hkeys, at?_append]
    cases root.at? ["clientOptions", "env"] with
    | none => rfl
    | some env => rw [Option.bind_some, at?_singleton, child?_eq_head?_valuesUnder]
  rw [envValue, hread]
  cases (root.variableNodes key).head?.bind asText <;> simp

/-- In every document the last text of a variable is listed and its first value is looked up; so a
variable whose key stands once is listed with the value that is looked up, and is not listed if none
is. -/
theorem variables_agree (root : Node) :
    (envVariables root).Sorted ∧ ∀ key,
      (∀ value, (key, value) ∈ envVariables root ↔
        ((root.variableNodes key).filterMap asText).getLast? = some value) ∧
      (∀ value, envValue key root = .ok value ↔
        (root.variableNodes key).head?.bind asText = some value) ∧
      ((root.variableNodes key).length ≤ 1 →
        ∀ value, (key, value) ∈ envVariables root ↔ envValue key root = .ok value) := by
  refine ⟨sorted_envVariables root, fun key => ⟨fun _ => mem_envVariables_iff,
    fun _ => envValue_eq_ok_iff, fun honce value => ?_⟩⟩
  rw [mem_envVariables_iff, envValue_eq_ok_iff]
  match root.variableNodes key, honce with
  | [], _ => simp
  | [n], _ => cases ht : n.asText <;> simp [ht]

/-- Below a tagged mapping a number is listed and looked up as its text, and a null is neither; next
to them a key stands twice. -/
theorem variables_agree_on_number :
    let root : Node := .mapping [(.string "clientOptions", .tagged "t" (.mapping [(.string "env",
      .mapping [(⟨"1", .int, none⟩, .string "a"), (.string "1", .string "b"),
        (.string "N", .scalar ⟨"5", .int, none⟩), (.string "C", .scalar .null)])]))]
    (root.variableNodes "N").length ≤ 1 ∧ (root.variableNodes "C").length ≤ 1 ∧
      envValue "N" root = .ok "5" ∧ ("N", "5") ∈ envVariables root ∧
      envValue "C" root = .error (.notFound "env variable" "C") ∧
      ∀ value, ("C", value) ∉ envVariables root := by
  intro root
  have hnumber : (root.variableNodes "N").length ≤ 1 := by decide
  have hnull : (root.variableNodes "C").length ≤ 1 := by decide
  have hvalue : envValue "N" root = .ok "5" := by decide
  have hnone : envValue "C" root = .error (.notFound "env variable" "C") := by decide
  obtain ⟨-, hagree⟩ := variables_agree root
  refine ⟨hnumber, hnull, hvalue, ((hagree "N").2.2 hnumber "5").2 hvalue, hnone, fun value h => ?_⟩
  have hlisted := ((hagree "C").2.2 hnull value).1 h
  rw [hnone] at hlisted
  cases hlisted

/-- In the tree of a value a key stands as a number and as a text: the first of its values is looked
up, and the second one is listed. -/
theorem variables_disagree :
    let value : Yaml.Value := .mapping [(.string "clientOptions", .mapping [(.string "env",
      .mapping [(.number (.int 1), .string "a"), (.string "1", .string "b")])])]
    let root : Node := .mapping [(.string "clientOptions", .mapping [(.string "env",
      .mapping [(⟨"1", .int, none⟩, .string "a"), (.string "1", .string "b")])])]
    Node.ofValue value = .ok root ∧ root.kind = .mapping ∧ envValue "1" root = .ok "a" ∧
      ("1", "a") ∉ envVariables root ∧ ("1", "b") ∈ envVariables root := by
  decide +kernel

end SharedConfig
