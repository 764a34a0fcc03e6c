import AiCoreStack.Foundation.JsonWriter
import AiCoreStack.Ranking.Engine

/-!
# Audit output

The rows of an outcome are written as JSON by hand, loop by loop.  Every row is a JSON text, and the
value that it writes holds the names as they are.
-/

namespace AiCoreStack.Ranking

open Foundation Json

/-! ## Floating-point numbers -/

/-- The shortest digits of a finite value, `0.d₁d₂… × 10 ^ exponent`.  Zero has none. -/
structure Decimal where
  negative : Bool
  digits : List (Fin 10)
  exponent : ℤ
  leading : digits.head? ≠ some 0

/-- Which digits the formatting of floating-point numbers finds. -/
class Shortest (F : Type) where
  decimal : F → Decimal

namespace Decimal

def digitText (digits : List (Fin 10)) : List Char := digits.map fun d => Nat.digitChar d.val

/-- `digits_to_dec_str`, without a number of fractional digits to reach. -/
def layout (digits : List (Fin 10)) (exponent : ℤ) : List Char :=
  if digits = [] then ['0']
  else if exponent ≤ 0 then
    ['0', '.'] ++ List.replicate (-exponent).toNat '0' ++ digitText digits
  else if exponent < digits.length then
    digitText (digits.take exponent.toNat) ++ '.' :: digitText (digits.drop exponent.toNat)
  else digitText digits ++ List.replicate (exponent.toNat - digits.length) '0'

/-- `{v}`. -/
def display (d : Decimal) : List Char :=
  (if d.negative then ['-'] else []) ++ layout d.digits d.exponent

end Decimal

variable {F C : Type} [Scalar F] [Shortest F]

/-! ## Writing -/

def jsonF32 (v : F) : List Char :=
  if Scalar.isFinite v then
    let s := (Shortest.decimal v).display
    if s.contains '.' || s.contains 'e' || s.contains 'E' then s else s ++ ".0".toList
  else "null".toList

def escapeChar (ch : Char) : List Char :=
  if ch = '"' then "\\\"".toList
  else if ch = '\\' then "\\\\".toList
  else if ch = '\n' then "\\n".toList
  else if ch = '\r' then "\\r".toList
  else if ch = '\t' then "\\t".toList
  else if ch.toNat < 0x20 then "\\u".toList ++ List.leftpad 4 '0' (Nat.toDigits 16 ch.toNat)
  else [ch]

def jsonString (s : List Char) : List Char := '"' :: (s.flatMap escapeChar ++ ['"'])

def CandidateId.display : CandidateId → List Char
  | num v => Nat.toDigits 10 v.toNat
  | text v => v.toList

omit [Scalar F] [Shortest F] in
def missingPolicyName : MissingPolicy F → String
  | .skip => "skip"
  | .impute _ => "impute"
  | .reject => "reject"

def jsonFusionInput : FusionInput F → List Char
  | .value v => ['{'] ++ "\"kind\":\"value\",\"value\":".toList ++ jsonF32 v ++ ['}']
  | .rank r => ['{'] ++ "\"kind\":\"rank\",\"rank\":".toList ++ Nat.toDigits 10 r.toNat ++ ['}']
  | .imputed v => ['{'] ++ "\"kind\":\"imputed\",\"value\":".toList ++ jsonF32 v ++ ['}']
  | .skipped => ['{'] ++ "\"kind\":\"skipped\"".toList ++ ['}']

/-- A loop that puts a comma before every item but the first. -/
def listed {α : Type} (render : α → List Char) (items : List α) : List Char :=
  items.zipIdx.foldl (fun s (item, i) => (if i > 0 then s ++ [','] else s) ++ render item) []

def scoreJson (entry : ScorerId × Option F) : List Char :=
  jsonString entry.1.toList ++ [':'] ++ entry.2.elim "null".toList jsonF32

def termJson (t : FusionTerm F) : List Char :=
  ['{'] ++ "\"scorer\":".toList ++ jsonString t.scorer.toList ++
    ",\"input\":".toList ++ jsonFusionInput t.input ++
    ",\"weight\":".toList ++ jsonF32 t.weight ++
    ",\"contribution\":".toList ++ jsonF32 t.contribution ++ ['}']

def constraintJson (c : ConstraintId) : List Char := jsonString c.toList ++ ":\"pass\"".toList

def Ranked.toJson (row : Ranked F C) (id : CandidateId) : List Char :=
  ['{'] ++ "\"candidate\":".toList ++ jsonString id.display ++
    ",\"rank\":".toList ++ Nat.toDigits 10 row.rank.toNat ++
    ",\"fused\":".toList ++ jsonF32 row.fused ++
    ",\"scores\":".toList ++ ['{'] ++ listed scoreJson row.scores ++ ['}'] ++
    ",\"missing_policy\":".toList ++ jsonString (missingPolicyName row.fusion.missing).toList ++
    ",\"fusion\":".toList ++ ['{'] ++ "\"method\":".toList ++
      jsonString row.fusion.method.name.toList ++
      row.fusion.k.elim [] (fun k => ",\"k\":".toList ++ jsonF32 k) ++
      ",\"terms\":[".toList ++ listed termJson row.fusion.terms ++ [']', '}'] ++
    ",\"constraints\":".toList ++ ['{'] ++ listed constraintJson row.constraints ++ ['}'] ++ ['}']

namespace RejectReason

def kind : RejectReason → String
  | notScored _ => "not_scored"
  | unaryConstraint _ => "unary_constraint"
  | setConstraint _ => "set_constraint"
  | belowThreshold => "below_threshold"
  | outranked => "outranked"
  | outOfPool => "out_of_pool"

def toJson : RejectReason → List Char
  | notScored id =>
      ['{'] ++ "\"kind\":\"not_scored\",\"scorer\":".toList ++ jsonString id.toList ++ ['}']
  | unaryConstraint id =>
      ['{'] ++ "\"kind\":\"unary_constraint\",\"constraint\":".toList ++ jsonString id.toList ++ ['}']
  | setConstraint id =>
      ['{'] ++ "\"kind\":\"set_constraint\",\"constraint\":".toList ++ jsonString id.toList ++ ['}']
  | other => ['{'] ++ "\"kind\":\"".toList ++ other.kind.toList ++ ['"', '}']

end RejectReason

def Rejected.toJson (row : Rejected F C) (id : CandidateId) : List Char :=
  ['{'] ++ "\"candidate\":".toList ++ jsonString id.display ++
    ",\"reason\":".toList ++ row.reason.toJson ++
    ",\"fused\":".toList ++ row.fused.elim "null".toList jsonF32 ++ ['}']

/-! ## What is written -/

/-- A value that is not finite is written as `null`. -/
def floatValue (v : F) : Json := if Scalar.isFinite v then .number (jsonF32 v) else .null

def scoreValue (entry : ScorerId × Option F) : List Char × Json :=
  (entry.1.toList, entry.2.elim .null floatValue)

def inputValue : FusionInput F → Json
  | .value v => .object [("kind".toList, .string "value".toList), ("value".toList, floatValue v)]
  | .rank r =>
      .object [("kind".toList, .string "rank".toList),
        ("rank".toList, .number (Nat.toDigits 10 r.toNat))]
  | .imputed v => .object [("kind".toList, .string "imputed".toList), ("value".toList, floatValue v)]
  | .skipped => .object [("kind".toList, .string "skipped".toList)]

def termValue (t : FusionTerm F) : Json :=
  .object
    [("scorer".toList, .string t.scorer.toList), ("input".toList, inputValue t.input),
      ("weight".toList, floatValue t.weight), ("contribution".toList, floatValue t.contribution)]

def fusionValue (trace : FusionTrace F) : Json :=
  .object
    (("method".toList, .string trace.method.name.toList) ::
      (trace.k.toList.map fun k => ("k".toList, floatValue k)) ++
      [("terms".toList, .array (trace.terms.map termValue))])

/-- The value of a row, with its names as they are. -/
def Ranked.value (row : Ranked F C) (id : CandidateId) : Json :=
  .object
    [("candidate".toList, .string id.display),
      ("rank".toList, .number (Nat.toDigits 10 row.rank.toNat)),
      ("fused".toList, floatValue row.fused),
      ("scores".toList, .object (row.scores.map scoreValue)),
      ("missing_policy".toList, .string (missingPolicyName row.fusion.missing).toList),
      ("fusion".toList, fusionValue row.fusion),
      ("constraints".toList, .object
        (row.constraints.map fun c => (c.toList, .string "pass".toList)))]

def RejectReason.value (reason : RejectReason) : Json :=
  .object
    (("kind".toList, .string reason.kind.toList) ::
      match reason with
      | notScored id => [("scorer".toList, .string id.toList)]
      | unaryConstraint id | setConstraint id => [("constraint".toList, .string id.toList)]
      | _ => [])

def Rejected.value (row : Rejected F C) (id : CandidateId) : Json :=
  .object
    [("candidate".toList, .string id.display), ("reason".toList, row.reason.value),
      ("fused".toList, row.fused.elim .null floatValue)]

/-! ## Numbers -/

namespace Decimal

theorem isDigit_digitText (digits : List (Fin 10)) :
    ∀ c ∈ digitText digits, c.isDigit = true := by
  intro c member
  obtain ⟨d, -, rfl⟩ := List.mem_map.mp member
  exact (by decide : ∀ d : Fin 10, (Nat.digitChar d.val).isDigit = true) d

theorem digitText_ne_nil {digits : List (Fin 10)} (some : digits ≠ []) : digitText digits ≠ [] :=
  fun none => some (List.map_eq_nil_iff.mp none)

theorem isDigits_digitText {digits : List (Fin 10)} (some : digits ≠ []) :
    IsDigits (digitText digits) :=
  ⟨digitText_ne_nil some, isDigit_digitText digits⟩

theorem isDigit_zeros (n : Nat) : ∀ c ∈ List.replicate n '0', c.isDigit = true := by
  intro c member
  rw [List.eq_of_mem_replicate member]
  rfl

theorem head_digitText {digits : List (Fin 10)} (leading : digits.head? ≠ some 0) :
    (digitText digits).head? ≠ some '0' := by
  cases digits with
  | nil => simp [digitText]
  | cons d rest =>
      have others : ∀ d : Fin 10, d ≠ 0 → some (Nat.digitChar d.val) ≠ some '0' := by decide
      exact others d fun zero => leading (by rw [zero]; rfl)

/-- Digits before the point, and perhaps a point with digits after it. -/
theorem layout_parts {digits : List (Fin 10)} (leading : digits.head? ≠ some 0) (exponent : ℤ) :
    ∃ int frac, layout digits exponent = int ++ frac ∧ IsInt int ∧ IsFrac frac := by
  rw [layout]
  split
  next => exact ⟨['0'], [], rfl, .inl rfl, .inl rfl⟩
  next some =>
    split
    next =>
      refine ⟨['0'], _, rfl, .inl rfl, .inr ⟨List.replicate (-exponent).toNat '0' ++
        digitText digits, ⟨List.append_ne_nil_of_right_ne_nil _ (digitText_ne_nil some), ?_⟩, rfl⟩⟩
      exact List.forall_mem_append.mpr ⟨isDigit_zeros _, isDigit_digitText digits⟩
    next positive =>
      split
      next inside =>
        have front : digits.take exponent.toNat ≠ [] := by
          rw [Ne, List.take_eq_nil_iff]
          exact fun none => none.elim (by omega) some
        have back : digits.drop exponent.toNat ≠ [] := by
          rw [Ne, List.drop_eq_nil_iff]
          omega
        have first : (digits.take exponent.toNat).head? ≠ Option.some 0 := by
          rw [List.head?_take, if_neg (by omega)]
          exact leading
        exact ⟨_, _, rfl, .inr ⟨isDigits_digitText front, head_digitText first⟩,
          .inr ⟨_, isDigits_digitText back, rfl⟩⟩
      next =>
        refine ⟨_, [], (List.append_nil _).symm,
          .inr ⟨⟨List.append_ne_nil_of_left_ne_nil (digitText_ne_nil some) _, ?_⟩, ?_⟩, .inl rfl⟩
        · exact List.forall_mem_append.mpr ⟨isDigit_digitText digits, isDigit_zeros _⟩
        · rw [List.head?_append_of_ne_nil _ (isDigits_digitText some).1]
          exact head_digitText leading

end Decimal

/-- A finite value is written as a number. -/
theorem floatValue_written (v : F) : Value (floatValue v) (jsonF32 v) := by
  rw [floatValue]
  by_cases finite : Scalar.isFinite v = true
  · rw [if_pos finite, jsonF32, if_pos finite]
    obtain ⟨int, frac, shape, isInt, isFrac⟩ :=
      Decimal.layout_parts (Shortest.decimal v).leading (Shortest.decimal v).exponent
    rw [Decimal.display, shape, ← List.append_assoc]
    have isSign : (if (Shortest.decimal v).negative then ['-'] else []) = [] ∨
        (if (Shortest.decimal v).negative then ['-'] else []) = ['-'] := by
      split
      · exact .inr rfl
      · exact .inl rfl
    generalize (if (Shortest.decimal v).negative then ['-'] else []) = sign at isSign
    dsimp only
    split
    next =>
      have parts := IsNumber.parts isSign isInt isFrac (.inl rfl)
      rw [List.append_nil] at parts
      exact .number parts
    next pointless =>
      obtain rfl | ⟨digits, -, rfl⟩ := isFrac
      · have parts := IsNumber.parts isSign isInt
          (.inr ⟨['0'], ⟨by simp, by simp⟩, rfl⟩) (.inl rfl)
        rw [List.append_nil] at parts ⊢
        exact .number parts
      · simp at pointless
  · rw [if_neg finite, jsonF32, if_neg finite]
    exact .null

/-! ## Strings -/

theorem hexCode_leftpad : ∀ n < 0x20,
    hexCode (List.leftpad 4 '0' (Nat.toDigits 16 n)) = some n := by decide

theorem writes_escapeChar (c : Char) : Writes c (escapeChar c) := by
  rw [escapeChar]
  split_ifs with quote backslash newline carriage tab control
  iterate 5
    · subst c
      exact .inl (.escape (by decide))
  · exact .inr ⟨control, .unit (hexCode_leftpad c.toNat control)⟩
  · exact .inl (.plain (not_lt.mp control) quote backslash)

/-- Every string is written as a literal of itself. -/
theorem jsonString_literal (s : List Char) : Literal s (jsonString s) :=
  .of_writes writes_escapeChar s

theorem jsonString_value (s : List Char) : Value (.string s) (jsonString s) :=
  .string (jsonString_literal s)

/-! ## Rows -/

theorem listed_eq {α : Type} (render : α → List Char) (items : List α) :
    listed render items = commas (items.map render) := by
  have later (rest : List α) (first : List Char) (i : Nat) :
      (rest.zipIdx (i + 1)).foldl
          (fun s (item, i) => (if i > 0 then s ++ [','] else s) ++ render item) first =
        commas (first :: rest.map render) := by
    induction rest generalizing first i with
    | nil => simp [commas]
    | cons item rest ih =>
        rw [List.zipIdx_cons, List.foldl_cons, ih]
        simp only [Nat.succ_pos, gt_iff_lt, if_true, List.map_cons]
        rw [commas_cons_cons]
        cases rest with
        | nil => simp [commas]
        | cons next rest => simp [commas_cons_cons]
  cases items with
  | nil => rfl
  | cons item rest => exact later rest (render item) 0

/-- Items written one by one. -/
theorem forall₂_map {α β : Type} {written : β → List Char → Prop} {value : α → β}
    {render : α → List Char} (each : ∀ item, written (value item) (render item)) (items : List α) :
    List.Forall₂ written (items.map value) (items.map render) := by
  rw [List.forall₂_map_left_iff, List.forall₂_map_right_iff]
  exact List.forall₂_same.mpr fun item _ => each item

/-- A member under a fixed name. -/
theorem named (name : List Char) {item : Json} {text : List Char} (value : Value item text) :
    Field (name, item) (jsonString name ++ ':' :: text) := .pair (jsonString_literal name) value

theorem optional_written (v : Option F) :
    Value (v.elim .null floatValue) (v.elim "null".toList jsonF32) := by
  cases v with
  | none => exact .null
  | some v => exact floatValue_written v

/-- An object with a kind and one more member. -/
theorem kind_written (kind name : List Char) {item : Json} {text : List Char}
    (value : Value item text) :
    Value (.object [("kind".toList, .string kind), (name, item)])
      ('{' :: (jsonString "kind".toList ++ ':' :: (jsonString kind ++
        ',' :: (jsonString name ++ ':' :: (text ++ ['}']))))) := by
  have written := Value.of_fields (.cons (named "kind".toList (jsonString_value kind))
    (.cons (named name value) .nil))
  simpa only [commas_cons_cons, commas_singleton, List.append_assoc, List.cons_append] using written

theorem jsonFusionInput_written (input : FusionInput F) :
    Value (inputValue input) (jsonFusionInput input) := by
  cases input with
  | value v =>
      simp only [jsonFusionInput, List.append_assoc, List.cons_append]
      exact kind_written "value".toList "value".toList (floatValue_written v)
  | rank r =>
      simp only [jsonFusionInput, List.append_assoc, List.cons_append]
      exact kind_written "rank".toList "rank".toList (number_toDigits r.toNat)
  | imputed v =>
      simp only [jsonFusionInput, List.append_assoc, List.cons_append]
      exact kind_written "imputed".toList "value".toList (floatValue_written v)
  | skipped =>
      exact .of_fields (.cons (named "kind".toList (jsonString_value "skipped".toList)) .nil)

theorem reason_written (reason : RejectReason) : Value reason.value reason.toJson := by
  have one (kind : List Char) :=
    Value.of_fields (.cons (named "kind".toList (jsonString_value kind)) .nil)
  cases reason with
  | notScored id =>
      simp only [RejectReason.toJson, List.append_assoc, List.cons_append]
      exact kind_written "not_scored".toList "scorer".toList (jsonString_value id.toList)
  | unaryConstraint id =>
      simp only [RejectReason.toJson, List.append_assoc, List.cons_append]
      exact kind_written "unary_constraint".toList "constraint".toList (jsonString_value id.toList)
  | setConstraint id =>
      simp only [RejectReason.toJson, List.append_assoc, List.cons_append]
      exact kind_written "set_constraint".toList "constraint".toList (jsonString_value id.toList)
  | belowThreshold => exact one "below_threshold".toList
  | outranked => exact one "outranked".toList
  | outOfPool => exact one "out_of_pool".toList

theorem scores_written (scores : ScoreSet F) :
    Value (.object (scores.map scoreValue)) ('{' :: (listed scoreJson scores ++ ['}'])) := by
  rw [listed_eq]
  refine .of_fields (forall₂_map (fun entry => ?_) scores)
  rw [scoreJson, List.append_assoc]
  exact named entry.1.toList (optional_written entry.2)

theorem constraints_written (constraints : List ConstraintId) :
    Value (.object (constraints.map fun c => (c.toList, .string "pass".toList)))
      ('{' :: (listed constraintJson constraints ++ ['}'])) := by
  rw [listed_eq]
  exact .of_fields (forall₂_map (fun c => named c.toList (jsonString_value "pass".toList))
    constraints)

theorem term_written (t : FusionTerm F) : Value (termValue t) (termJson t) := by
  have written := Value.of_fields (.cons (named "scorer".toList (jsonString_value t.scorer.toList))
    (.cons (named "input".toList (jsonFusionInput_written t.input))
      (.cons (named "weight".toList (floatValue_written t.weight))
        (.cons (named "contribution".toList (floatValue_written t.contribution)) .nil))))
  simp only [commas_cons_cons, commas_singleton, List.append_assoc, List.cons_append] at written
  simp only [termJson, List.append_assoc, List.cons_append]
  exact written

theorem terms_written (terms : List (FusionTerm F)) :
    Value (.array (terms.map termValue)) ('[' :: (listed termJson terms ++ [']'])) := by
  rw [listed_eq]
  exact .of_values (forall₂_map term_written terms)

/-- The part of a row that tells of the fusion. -/
def fusionText (trace : FusionTrace F) : List Char :=
  ['{'] ++ ("\"method\":".toList ++ (jsonString trace.method.name.toList ++
    (trace.k.elim [] (fun k => ",\"k\":".toList ++ jsonF32 k) ++
      (",\"terms\":[".toList ++ (listed termJson trace.terms ++ [']', '}'])))))

theorem fusion_written (trace : FusionTrace F) : Value (fusionValue trace) (fusionText trace) := by
  have terms := named "terms".toList (terms_written trace.terms)
  rw [fusionValue, fusionText]
  cases trace.k with
  | none =>
      have written := Value.of_fields
        (.cons (named "method".toList (jsonString_value trace.method.name.toList))
          (.cons terms .nil))
      simp only [commas_cons_cons, commas_singleton, List.append_assoc, List.cons_append] at written
      exact written
  | some k =>
      have written := Value.of_fields
        (.cons (named "method".toList (jsonString_value trace.method.name.toList))
          (.cons (named "k".toList (floatValue_written k)) (.cons terms .nil)))
      simp only [commas_cons_cons, commas_singleton, List.append_assoc, List.cons_append] at written
      simp only [Option.elim_some, List.append_assoc]
      exact written

/-- The members of a ranked row one after the other. -/
theorem ranked_layout (candidate rank fused scores missing fusion constraints : List Char) :
    ['{'] ++ ("\"candidate\":".toList ++ (candidate ++ (",\"rank\":".toList ++ (rank ++
      (",\"fused\":".toList ++ (fused ++ (",\"scores\":".toList ++ (scores ++
        (",\"missing_policy\":".toList ++ (missing ++ (",\"fusion\":".toList ++ (fusion ++
          (",\"constraints\":".toList ++ (constraints ++ ['}'])))))))))))))) =
      '{' :: (commas
        [jsonString "candidate".toList ++ ':' :: candidate,
          jsonString "rank".toList ++ ':' :: rank, jsonString "fused".toList ++ ':' :: fused,
          jsonString "scores".toList ++ ':' :: scores,
          jsonString "missing_policy".toList ++ ':' :: missing,
          jsonString "fusion".toList ++ ':' :: fusion,
          jsonString "constraints".toList ++ ':' :: constraints] ++ ['}']) := by
  simp only [commas_cons_cons, commas_singleton, List.append_assoc, List.cons_append]
  rfl

theorem Ranked.toJson_eq (row : Ranked F C) (id : CandidateId) :
    row.toJson id = ['{'] ++ ("\"candidate\":".toList ++ (jsonString id.display ++
      (",\"rank\":".toList ++ (Nat.toDigits 10 row.rank.toNat ++
        (",\"fused\":".toList ++ (jsonF32 row.fused ++
          (",\"scores\":".toList ++ ((['{'] ++ (listed scoreJson row.scores ++ ['}'])) ++
            (",\"missing_policy\":".toList ++
              (jsonString (missingPolicyName row.fusion.missing).toList ++
                (",\"fusion\":".toList ++ (fusionText row.fusion ++
                  (",\"constraints\":".toList ++
                    ((['{'] ++ (listed constraintJson row.constraints ++ ['}'])) ++
                      ['}'])))))))))))))) := by
  unfold toJson fusionText
  simp only [List.append_assoc]

theorem Ranked.written (row : Ranked F C) (id : CandidateId) :
    Value (row.value id) (row.toJson id) := by
  rw [toJson_eq, ranked_layout]
  exact .of_fields
    (.cons (named "candidate".toList (jsonString_value id.display))
      (.cons (named "rank".toList (number_toDigits row.rank.toNat))
        (.cons (named "fused".toList (floatValue_written row.fused))
          (.cons (named "scores".toList (scores_written row.scores))
            (.cons (named "missing_policy".toList
                (jsonString_value (missingPolicyName row.fusion.missing).toList))
              (.cons (named "fusion".toList (fusion_written row.fusion))
                (.cons (named "constraints".toList (constraints_written row.constraints))
                  .nil)))))))

theorem Rejected.written (row : Rejected F C) (id : CandidateId) :
    Value (row.value id) (row.toJson id) := by
  have written := Value.of_fields
    (.cons (named "candidate".toList (jsonString_value id.display))
      (.cons (named "reason".toList (reason_written row.reason))
        (.cons (named "fused".toList (optional_written row.fused)) .nil)))
  simp only [commas_cons_cons, commas_singleton, List.append_assoc, List.cons_append] at written
  simp only [toJson, List.append_assoc, List.cons_append]
  exact written

/-- A text that writes a value and nothing else, and that the parser reads as this value. -/
structure Writes (text : List Char) (value : Json) : Prop where
  document : Document value text
  parsed : parse text = some value
  only : ∀ other, Document other text → other = value

omit [Scalar F] [Shortest F] in
theorem Writes.of_value {value : Json} {text : List Char} (written : Value value text) :
    Writes text value where
  document := written.document
  parsed := written.document.parse_eq
  only _ := written.document.unique

/-- Every row is written as a JSON text that holds its names as they are, and a name is read back
from its literal. -/
theorem audit_writes (F C : Type) [Scalar F] [Shortest F] :
    (∀ (row : Ranked F C) (id : CandidateId), Writes (row.toJson id) (row.value id)) ∧
      (∀ (row : Rejected F C) (id : CandidateId), Writes (row.toJson id) (row.value id)) ∧
      ∀ s, Writes (jsonString s) (.string s) :=
  ⟨fun row id => .of_value (row.written id), fun row id => .of_value (row.written id),
    fun s => .of_value (jsonString_value s)⟩

/-- Quotes, backslashes and control characters. -/
example : jsonString ['a', '"', '\\', '\n', '\x01'] =
    ['"', 'a', '\\', '"', '\\', '\\', '\\', 'n', '\\', 'u', '0', '0', '0', '1', '"'] := by
  decide

end AiCoreStack.Ranking
