import AiCoreStack.Foundation.Template
import AiCoreStack.Pii.Mask

/-!
# Masked texts restore

The output of the masking loop is the encoding of a template: the slots are the
tokenised spans, the plain stretches are the copied text and the placeholders of
the other policies.  Restoring expands the template.
-/

namespace AiCoreStack.Pii

open AiCoreStack.Foundation
open String (utf8Len utf8Len_append)

/-! ## Token numbers -/

theorem decimal_ne_nil (n : Nat) : decimal n ≠ [] := Nat.toDigits_ne_nil

theorem decimal_isDigit {n : Nat} {c : Char} (member : c ∈ decimal n) : isAsciiDigit c :=
  isAsciiDigit_of_isDigit (Nat.isDigit_of_mem_toDigits (by decide) (by decide) member)

theorem not_mem_decimal {n : Nat} {c : Char} (other : isAsciiDigit c = false) :
    c ∉ decimal n := by
  intro member
  rw [decimal_isDigit member] at other
  exact absurd other (by decide)

theorem stripPlus_decimal (n : Nat) : stripPlus (decimal n) = decimal n := by
  unfold stripPlus
  split
  next rest same =>
    have absent : '+' ∉ decimal n := not_mem_decimal (by decide)
    exact absurd (by simp [same]) absent
  next => rfl

/-- A token number is read back. -/
theorem parseUsize_decimal {n : Nat} (bound : n < 2 ^ 64) : parseUsize (decimal n) = some n := by
  have allDigits : (decimal n).all isAsciiDigit = true := by
    rw [List.all_eq_true]
    exact fun c member => decimal_isDigit member
  have value : Nat.ofDigitChars 10 (decimal n) 0 = n := Nat.ofDigitChars_ten_toDigits
  simp only [parseUsize, stripPlus_decimal, decimal_ne_nil, allDigits, value, bound, not_true,
    or_self, if_false, if_true]

theorem mem_stripPlus {text : List Char} {c : Char} (member : c ∈ text) (other : c ≠ '+') :
    c ∈ stripPlus text := by
  unfold stripPlus
  split
  next rest => exact (List.mem_cons.mp member).resolve_left other
  next => exact member

/-- A text with a bracket is no number. -/
theorem parseUsize_bracket {text : List Char} (member : '[' ∈ text) : parseUsize text = none := by
  refine if_pos (.inr ?_)
  intro allDigits
  have digit := List.all_eq_true.mp allDigits _ (mem_stripPlus member (by decide))
  exact absurd digit (by decide)

/-! ## Restoring is expanding -/

/-- The original a label stands for. -/
def readLabel (map : RestoreMap) (label : List Char) : Option (List Char) :=
  ((parseUsize label).bind fun index => map.entries[index]?).map RestoreEntry.original

theorem unmaskFrom_eq_ok {map : RestoreMap} {rest restored : List Char} :
    unmaskFrom map rest = .ok restored ↔
      expandMarks (opener map.tokenPrefix) ']' [']'] (readLabel map) rest = some restored := by
  fun_induction unmaskFrom map rest generalizing restored with
  | case1 rest found =>
      rw [expandMarks_of_absent (splitOnce_eq_none.mp found)]
      simp
  | case2 rest head after found closed =>
      rw [expandMarks_unclosed found closed]
      simp
  | case3 rest head after found inside rest' closed parsed =>
      rw [expandMarks_mark found closed]
      simp [readLabel, parsed]
  | case4 rest head after found inside rest' closed index parsed entered =>
      rw [expandMarks_mark found closed]
      simp [readLabel, parsed, entered]
  | case5 rest head after found inside rest' closed index parsed entry entered shorter tail ok ih =>
      rw [expandMarks_mark found closed, ih.mp ok]
      simp [readLabel, parsed, entered]
  | case6 rest head after found inside rest' closed index parsed entry entered shorter error bad ih =>
      rw [expandMarks_mark found closed]
      have unexpanded : expandMarks (opener map.tokenPrefix) ']' [']'] (readLabel map) rest' = none := by
        rw [Option.eq_none_iff_forall_not_mem]
        intro tail expands
        rw [ih.mpr expands] at bad
        exact absurd bad (by simp)
      simp [readLabel, parsed, entered, unexpanded]

/-! ## Token prefixes -/

/-- Token prefixes in the order they are tried. -/
def prefixAt : Nat → List Char
  | 0 => basePrefix
  | n + 1 => basePrefix ++ decimal n

/-- The first token prefix whose opener the text does not contain. -/
def FirstFree (text tokenPrefix : List Char) : Prop :=
  ∃ n ≤ 2 ^ 32, tokenPrefix = prefixAt n ∧ ¬ opener tokenPrefix <:+: text ∧
    ∀ m < n, opener (prefixAt m) <:+: text

theorem colon_not_mem_prefixAt (n : Nat) : ':' ∉ prefixAt n := by
  cases n with
  | zero => decide
  | succ n =>
      have absent : ':' ∉ decimal n := not_mem_decimal (by decide)
      simp [prefixAt, basePrefix, absent]

theorem opener_borderFree {tokenPrefix : List Char} (absent : ':' ∉ tokenPrefix) :
    BorderFree (opener tokenPrefix) := by
  have fresh : ':' ∉ '[' :: '[' :: tokenPrefix := by simpa using absent
  exact borderFree_of_last fresh

theorem decimal_injective : Function.Injective decimal := by
  intro left right same
  have values := congrArg (fun digits => Nat.ofDigitChars 10 digits 0) same
  simpa [decimal] using values

theorem prefixAt_injective : Function.Injective prefixAt := by
  intro left right same
  cases left with
  | zero =>
      cases right with
      | zero => rfl
      | succ right => exact absurd same (by simp [prefixAt, decimal_ne_nil])
  | succ left =>
      cases right with
      | zero => exact absurd same (by simp [prefixAt, decimal_ne_nil])
      | succ right =>
          simp only [prefixAt, List.append_cancel_left_eq] at same
          rw [decimal_injective same]

/-- Two openers at one place are the same. -/
theorem opener_injective {left right leftTail rightTail : List Char} (leftPlain : ':' ∉ left)
    (rightPlain : ':' ∉ right)
    (same : opener left ++ leftTail = opener right ++ rightTail) : left = right := by
  simp only [opener, List.cons_append, List.cons.injEq, true_and] at same
  have first : splitOnce [':'] (left ++ [':'] ++ leftTail) = some (left, leftTail) :=
    splitOnce_of_head_not_mem leftPlain
  have second : splitOnce [':'] (right ++ [':'] ++ rightTail) = some (right, rightTail) :=
    splitOnce_of_head_not_mem rightPlain
  rw [same, second, Option.some.injEq, Prod.mk.injEq] at first
  exact first.1.symm

/-- Every opener takes a place of its own, so a text contains no more of them
than it has characters. -/
theorem card_openers_le {text : List Char} {bound : Nat}
    (occur : ∀ n < bound, opener (prefixAt n) <:+: text) : bound ≤ text.length := by
  have places : ∀ n, ∃ left right : List Char, n < bound →
      left ++ opener (prefixAt n) ++ right = text := by
    intro n
    by_cases small : n < bound
    · obtain ⟨left, right, same⟩ := occur n small
      exact ⟨left, right, fun _ => same⟩
    · exact ⟨[], [], fun small' => absurd small' small⟩
  choose left right same using places
  have injective : Set.InjOn (fun n => (left n).length) (Finset.range bound) := by
    intro n nSmall m mSmall lengths
    simp only [Finset.coe_range, Set.mem_Iio] at nSmall mSmall
    have whole := (same n nSmall).trans (same m mSmall).symm
    rw [List.append_assoc, List.append_assoc] at whole
    have tails := (List.append_inj whole lengths).2
    exact prefixAt_injective
      (opener_injective (colon_not_mem_prefixAt n) (colon_not_mem_prefixAt m) tails)
  have inside : ∀ n ∈ Finset.range bound, (left n).length ∈ Finset.range text.length := by
    intro n small
    rw [Finset.mem_range] at small ⊢
    rw [← same n small]
    simp [opener]
  simpa using Finset.card_le_card_of_injOn _ inside injective

/-- The counter and the prefix of the next round. -/
theorem searchPrefix_next {text : List Char} {fuel start : Nat}
    (room : start + (fuel + 1) ≤ 2 ^ 32 + 1) :
    RestoreMap.searchPrefix text fuel (UInt32.ofNat start + 1)
        (basePrefix ++ decimal (UInt32.ofNat start).toNat) =
      RestoreMap.searchPrefix text fuel (UInt32.ofNat (start + 1)) (prefixAt (start + 1)) := by
  cases fuel with
  | zero => rfl
  | succ fuel =>
      have small : start < UInt32.size := by
        have size : UInt32.size = 2 ^ 32 := rfl
        omega
      rw [UInt32.toNat_ofNat_of_lt' small, UInt32.ofNat_add]
      rfl

theorem searchPrefix_eq_some {text tokenPrefix : List Char} (fuel start : Nat)
    (room : start + fuel ≤ 2 ^ 32 + 1) :
    RestoreMap.searchPrefix text fuel (UInt32.ofNat start) (prefixAt start) =
        some tokenPrefix ↔
      ∃ n, start ≤ n ∧ n < start + fuel ∧ tokenPrefix = prefixAt n ∧
        ¬ opener tokenPrefix <:+: text ∧
        ∀ m, start ≤ m → m < n → opener (prefixAt m) <:+: text := by
  induction fuel generalizing start with
  | zero =>
      simp only [RestoreMap.searchPrefix, reduceCtorEq, false_iff]
      rintro ⟨n, low, high, -⟩
      omega
  | succ fuel ih =>
      rw [RestoreMap.searchPrefix]
      by_cases occurs : opener (prefixAt start) <:+: text
      · obtain ⟨before, after, found⟩ := splitOnce_isSome occurs
        rw [found, Option.isSome_some, if_pos rfl, searchPrefix_next room,
          ih (start + 1) (by omega)]
        constructor
        · rintro ⟨n, low, high, same, absent, earlier⟩
          refine ⟨n, by omega, by omega, same, absent, ?_⟩
          intro m mLow mHigh
          rcases Nat.lt_or_eq_of_le mLow with less | rfl
          · exact earlier m less mHigh
          · exact occurs
        · rintro ⟨n, low, high, rfl, absent, earlier⟩
          have later : start ≠ n := by
            rintro rfl
            exact absent occurs
          exact ⟨n, by omega, by omega, rfl, absent, fun m mLow => earlier m (by omega)⟩
      · rw [splitOnce_eq_none.mpr occurs, Option.isSome_none, if_neg (by simp),
          Option.some.injEq]
        constructor
        · rintro rfl
          exact ⟨start, le_refl _, by omega, rfl, occurs, fun m low high => by omega⟩
        · rintro ⟨n, low, high, rfl, absent, earlier⟩
          rcases Nat.lt_or_eq_of_le low with less | same
          · exact absurd (earlier start (le_refl _) less) occurs
          · rw [same]

theorem firstFree_iff {text tokenPrefix : List Char} :
    RestoreMap.searchPrefix text (2 ^ 32 + 1) 0 basePrefix = some tokenPrefix ↔
      FirstFree text tokenPrefix := by
  have search : RestoreMap.searchPrefix text (2 ^ 32 + 1) 0 basePrefix = some tokenPrefix ↔ _ :=
    searchPrefix_eq_some (2 ^ 32 + 1) 0 (by omega)
  rw [search]
  constructor
  · rintro ⟨n, -, high, same, absent, earlier⟩
    exact ⟨n, by omega, same, absent, fun m => earlier m (Nat.zero_le m)⟩
  · rintro ⟨n, high, same, absent, earlier⟩
    exact ⟨n, Nat.zero_le n, by omega, same, absent, fun m _ => earlier m⟩

theorem forText_eq_some {text : List Char} {map : RestoreMap} :
    RestoreMap.forText text = some map ↔
      FirstFree text map.tokenPrefix ∧ map.entries = [] := by
  obtain ⟨tokenPrefix, entries⟩ := map
  rw [RestoreMap.forText, Option.map_eq_some_iff]
  constructor
  · rintro ⟨found, search, same⟩
    rw [RestoreMap.mk.injEq] at same
    exact ⟨same.1 ▸ firstFree_iff.mp search, same.2.symm⟩
  · rintro ⟨free, empty⟩
    exact ⟨tokenPrefix, firstFree_iff.mpr free, by rw [← empty]⟩

/-- A text within the offset limit has a free token prefix. -/
theorem exists_firstFree {text : List Char} (fits : Fits text) :
    ∃ tokenPrefix, FirstFree text tokenPrefix := by
  have free : ∃ n, n ≤ 2 ^ 32 ∧ ¬ opener (prefixAt n) <:+: text := by
    by_contra none
    simp only [not_exists, not_and, not_not] at none
    have many : 2 ^ 32 + 1 ≤ text.length :=
      card_openers_le fun n small => none n (by omega)
    have few := fits.length_lt
    omega
  obtain ⟨small, absent⟩ := Nat.find_spec free
  refine ⟨prefixAt (Nat.find free), Nat.find free, small, rfl, absent, ?_⟩
  intro m earlier
  have occurs := Nat.find_min free earlier
  simp only [not_and, not_not] at occurs
  exact occurs (by omega)

/-! ## The masking loop builds a template -/

section Loop

variable [Hmac] {F : Type}

/-- Findings the loop applies, in order. -/
def appliedFrom (text : List Char) : Nat → List (Finding F) → List (Finding F)
  | _, [] => []
  | cursor, finding :: findings =>
      if misplaced text cursor finding.source then appliedFrom text cursor findings
      else finding :: appliedFrom text finding.source.byte.stop.toNat findings

/-- Findings the loop passes over, in order. -/
def skippedFrom (text : List Char) : Nat → List (Finding F) → List (Finding F)
  | _, [] => []
  | cursor, finding :: findings =>
      if misplaced text cursor finding.source then
        finding :: skippedFrom text cursor findings
      else skippedFrom text finding.source.byte.stop.toNat findings

/-- The template of the applied findings from a cursor on.  Tokens are numbered
from `index`. -/
def templateFrom (policies : PolicySet) (text : List Char) :
    Nat → Nat → List (Finding F) → Option (Template Char)
  | cursor, _, [] => (sliceBytes text cursor (utf8Len text)).map fun rest => ⟨rest, []⟩
  | cursor, index, finding :: findings =>
      (sliceBytes text cursor finding.source.byte.start.toNat).bind fun gap =>
      (finding.source.slice text).bind fun original =>
      if policies.policyFor finding.entity = .tokenize then
        (templateFrom policies text finding.source.byte.stop.toNat (index + 1) findings).map
          fun next => ⟨gap, ⟨decimal index, original, next.leading⟩ :: next.slots⟩
      else
        (placeholder (policies.policyFor finding.entity) original finding.entity).bind
          fun shown =>
        (templateFrom policies text finding.source.byte.stop.toNat index findings).map
          fun next => ⟨gap ++ shown ++ next.leading, next.slots⟩

theorem maskFrom_cons (text : List Char) (policies : PolicySet) (state : MaskState F)
    (finding : Finding F) (findings : List (Finding F)) :
    maskFrom text policies state (finding :: findings) =
      (maskStep text policies state finding).bind
        fun state => maskFrom text policies state findings := by
  simp only [maskFrom, List.foldlM_cons, Option.bind_eq_bind, Option.bind_assoc]

variable {text : List Char} {policies : PolicySet}

/-- The loop's result from a state with a restore table, read off a template. -/
def Masks (text : List Char) (policies : PolicySet) (state : MaskState F) (map : RestoreMap)
    (findings : List (Finding F)) : Option (Template Char) → Prop
  | none => maskFrom text policies state findings = none
  | some template => ∃ entries : List RestoreEntry,
      entries.map RestoreEntry.original = template.slots.map Slot.value ∧
      maskFrom text policies state findings = some
        ⟨state.output.text ++ template.encoded (opener map.tokenPrefix) closer,
          state.output.applied ++ appliedFrom text state.cursor findings,
          state.output.skipped ++ skippedFrom text state.cursor findings,
          some ⟨map.tokenPrefix, map.entries ++ entries⟩⟩

theorem render_tokenize (original : List Char) (entity : EntityKind) (map : RestoreMap) :
    render .tokenize original entity (some map) =
      some (RestoreMap.tokenAt map.tokenPrefix map.entries.length,
        some (map.push entity original).2) := rfl

theorem render_other {policy : Policy} (other : policy ≠ .tokenize) (original : List Char)
    (entity : EntityKind) (restore : Option RestoreMap) :
    render policy original entity restore =
      (placeholder policy original entity).map fun text => (text, restore) := by
  cases policy with
  | tokenize => exact absurd rfl other
  | redact redaction => rfl
  | partialReveal keepPrefix keepSuffix fill => rfl
  | hash key len => rfl

/-- A finding that is passed over. -/
theorem masks_misplaced {state : MaskState F} {map : RestoreMap} {finding : Finding F}
    {findings : List (Finding F)} {built : Option (Template Char)}
    (place : misplaced text state.cursor finding.source = true)
    (rest : Masks text policies { state with output := { state.output with
      skipped := state.output.skipped ++ [finding] } } map findings built) :
    Masks text policies state map (finding :: findings) built := by
  cases built with
  | none => simpa [Masks, maskFrom_cons, maskStep, place] using rest
  | some template =>
      simpa [Masks, maskFrom_cons, maskStep, place, appliedFrom, skippedFrom] using rest

/-- A finding that is replaced, by what the template shows for it. -/
theorem masks_replaced {state : MaskState F} {map more : RestoreMap} {finding : Finding F}
    {findings : List (Finding F)} {gap original shown : List Char} {added : List RestoreEntry}
    {built : Option (Template Char)} {extend : Template Char → Template Char}
    (table : state.output.restore = some map)
    (place : misplaced text state.cursor finding.source = false)
    (gapEq : sliceBytes text state.cursor finding.source.byte.start.toNat = some gap)
    (originalEq : finding.source.slice text = some original)
    (rendered : render (policies.policyFor finding.entity) original finding.entity (some map) =
      some (shown, some more))
    (grown : more = ⟨map.tokenPrefix, map.entries ++ added⟩)
    (values : ∀ next, (extend next).slots.map Slot.value =
      added.map RestoreEntry.original ++ next.slots.map Slot.value)
    (shows : ∀ next, (extend next).encoded (opener map.tokenPrefix) closer =
      gap ++ shown ++ next.encoded (opener map.tokenPrefix) closer)
    (rest : Masks text policies
      ⟨⟨state.output.text ++ gap ++ shown, state.output.applied ++ [finding],
        state.output.skipped, some more⟩, finding.source.byte.stop.toNat⟩ more findings built) :
    Masks text policies state map (finding :: findings) (built.map extend) := by
  have step : maskFrom text policies state (finding :: findings) = maskFrom text policies
      ⟨⟨state.output.text ++ gap ++ shown, state.output.applied ++ [finding],
        state.output.skipped, some more⟩, finding.source.byte.stop.toNat⟩ findings := by
    simp [maskFrom_cons, maskStep, place, gapEq, originalEq, table, rendered]
  subst grown
  cases built with
  | none => exact step.trans rest
  | some next =>
      obtain ⟨entries, originals, ran⟩ := rest
      refine ⟨added ++ entries, by simp [originals, values], ?_⟩
      rw [step, ran, appliedFrom, skippedFrom, place]
      simp [shows]

/-- The loop encodes the template of the findings it applies, and fails when
there is none. -/
theorem maskFrom_spec (findings : List (Finding F)) (state : MaskState F) (map : RestoreMap)
    (table : state.output.restore = some map) :
    Masks text policies state map findings (templateFrom policies text state.cursor
      map.entries.length (appliedFrom text state.cursor findings)) := by
  induction findings generalizing state map with
  | nil =>
      cases tail : sliceBytes text state.cursor (utf8Len text) with
      | none => simp [Masks, maskFrom, appliedFrom, templateFrom, tail]
      | some rest =>
          simp only [appliedFrom, templateFrom, tail, Option.map_some, Masks]
          exact ⟨[], rfl, by simp [maskFrom, tail, skippedFrom, table]⟩
  | cons finding findings ih =>
      cases place : misplaced text state.cursor finding.source with
      | true =>
          rw [appliedFrom, if_pos place]
          exact masks_misplaced place (ih { state with output := { state.output with
            skipped := state.output.skipped ++ [finding] } } map table)
      | false =>
          rw [appliedFrom, place, if_neg (by simp), templateFrom]
          cases gapEq : sliceBytes text state.cursor finding.source.byte.start.toNat with
          | none => simp [Masks, maskFrom_cons, maskStep, place, gapEq]
          | some gap =>
              cases originalEq : finding.source.slice text with
              | none => simp [Masks, maskFrom_cons, maskStep, place, gapEq, originalEq]
              | some original =>
                  simp only [Option.bind_some]
                  split
                  next tokenized =>
                    have rendered := tokenized ▸ render_tokenize original finding.entity map
                    refine masks_replaced table place gapEq originalEq rendered rfl
                      (fun _ => rfl) (fun next => ?_) ?_
                    · simp [Template.encoded, RestoreMap.tokenAt]
                    · simpa [RestoreMap.push] using ih ⟨_, finding.source.byte.stop.toNat⟩
                        (map.push finding.entity original).2 rfl
                  next other =>
                    cases shownEq : placeholder (policies.policyFor finding.entity) original
                        finding.entity with
                    | none =>
                        simp [Masks, maskFrom_cons, maskStep, place, gapEq, originalEq,
                          render_other other, shownEq]
                    | some shown =>
                        simp only [Option.bind_some]
                        refine masks_replaced table place gapEq originalEq
                          (by rw [render_other other, shownEq, Option.map_some])
                          (congrArg _ (List.append_nil _).symm)
                          (fun _ => rfl) (fun next => ?_)
                          (ih ⟨_, finding.source.byte.stop.toNat⟩ map rfl)
                        simp [Template.encoded]

/-- What a template of at least one finding is made of. -/
theorem templateFrom_cons {cursor index : Nat} {finding : Finding F}
    {findings : List (Finding F)} {template : Template Char}
    (built : templateFrom policies text cursor index (finding :: findings) = some template) :
    ∃ gap original,
      sliceBytes text cursor finding.source.byte.start.toNat = some gap ∧
      finding.source.slice text = some original ∧
      ((policies.policyFor finding.entity = .tokenize ∧ ∃ next,
          templateFrom policies text finding.source.byte.stop.toNat (index + 1) findings =
            some next ∧
          template = ⟨gap, ⟨decimal index, original, next.leading⟩ :: next.slots⟩) ∨
        (policies.policyFor finding.entity ≠ .tokenize ∧ ∃ shown next,
          placeholder (policies.policyFor finding.entity) original finding.entity =
            some shown ∧
          templateFrom policies text finding.source.byte.stop.toNat index findings =
            some next ∧
          template = ⟨gap ++ shown ++ next.leading, next.slots⟩)) := by
  rw [templateFrom, Option.bind_eq_some_iff] at built
  obtain ⟨gap, gapEq, built⟩ := built
  rw [Option.bind_eq_some_iff] at built
  obtain ⟨original, originalEq, built⟩ := built
  refine ⟨gap, original, gapEq, originalEq, ?_⟩
  split at built
  next tokenized =>
    obtain ⟨next, nextEq, rfl⟩ := Option.map_eq_some_iff.mp built
    exact .inl ⟨tokenized, next, nextEq, rfl⟩
  next other =>
    rw [Option.bind_eq_some_iff] at built
    obtain ⟨shown, shownEq, built⟩ := built
    obtain ⟨next, nextEq, rfl⟩ := Option.map_eq_some_iff.mp built
    exact .inr ⟨other, shown, next, shownEq, nextEq, rfl⟩

omit [Hmac] in
theorem sliceBytes_occurs {middle : List Char} {start stop : Nat}
    (slice : sliceBytes text start stop = some middle) : middle <:+: text := by
  obtain ⟨before, after, rfl, -, -⟩ := sliceBytes_eq_some.mp slice
  exact ⟨before, after, rfl⟩

/-- The slots of a template are numbered in order, hide parts of the text, and
are no more than the findings. -/
theorem templateFrom_slots {cursor index : Nat} {findings : List (Finding F)}
    {template : Template Char}
    (built : templateFrom policies text cursor index findings = some template) :
    template.slots.map Slot.label = (List.range' index template.slots.length).map decimal ∧
      (∀ slot ∈ template.slots, slot.value <:+: text) ∧
      template.slots.length ≤ findings.length := by
  induction findings generalizing cursor index template with
  | nil =>
      obtain ⟨rest, -, rfl⟩ := Option.map_eq_some_iff.mp built
      simp
  | cons finding findings ih =>
      obtain ⟨gap, original, -, originalEq, tokenized | other⟩ := templateFrom_cons built
      · obtain ⟨-, next, nextEq, rfl⟩ := tokenized
        obtain ⟨labels, values, count⟩ := ih nextEq
        refine ⟨by simp [labels, List.range'_succ], ?_, by simpa using count⟩
        intro slot member
        rcases List.mem_cons.mp member with rfl | inside
        · exact sliceBytes_occurs originalEq
        · exact values slot inside
      · obtain ⟨-, shown, next, -, nextEq, rfl⟩ := other
        obtain ⟨labels, values, count⟩ := ih nextEq
        exact ⟨labels, values, by simpa using Nat.le_succ_of_le count⟩

/-- The text with the applied spans replaced by what their policies leave for
good, and every tokenised span back in place. -/
def restoredFrom (policies : PolicySet) (text : List Char) :
    Nat → List (Finding F) → Option (List Char)
  | cursor, [] => sliceBytes text cursor (utf8Len text)
  | cursor, finding :: findings =>
      (sliceBytes text cursor finding.source.byte.start.toNat).bind fun gap =>
      (finding.source.slice text).bind fun original =>
      (if policies.policyFor finding.entity = .tokenize then some original
        else placeholder (policies.policyFor finding.entity) original finding.entity).bind
          fun shown =>
      (restoredFrom policies text finding.source.byte.stop.toNat findings).map
        fun rest => gap ++ shown ++ rest

theorem restoredFrom_eq (cursor index : Nat) (findings : List (Finding F)) :
    restoredFrom policies text cursor findings =
      (templateFrom policies text cursor index findings).map Template.revealed := by
  induction findings generalizing cursor index with
  | nil =>
      rw [restoredFrom, templateFrom, Option.map_map]
      cases sliceBytes text cursor (utf8Len text) <;> simp
  | cons finding findings ih =>
      rw [restoredFrom, templateFrom]
      cases sliceBytes text cursor finding.source.byte.start.toNat with
      | none => rfl
      | some gap =>
          cases finding.source.slice text with
          | none => rfl
          | some original =>
              simp only [Option.bind_some]
              split
              next =>
                rw [Option.bind_some, ih _ (index + 1), Option.map_map, Option.map_map]
                congr 1
                funext next
                simp [Template.revealed]
              next =>
                cases placeholder (policies.policyFor finding.entity) original
                    finding.entity with
                | none => rfl
                | some shown =>
                    rw [Option.bind_some, Option.bind_some, ih _ index, Option.map_map,
                      Option.map_map]
                    congr 1
                    funext next
                    simp [Template.revealed]

end Loop

/-! ## Restoring a masked text -/

/-- A span that could be applied starts and ends between characters. -/
def OnBoundaries (text : List Char) (span : Span) : Prop :=
  span.byte.start ≤ span.byte.stop → span.byte.stop.toNat ≤ utf8Len text →
    IsBoundary text span.byte.start.toNat ∧ IsBoundary text span.byte.stop.toNat

instance (text : List Char) (span : Span) : Decidable (OnBoundaries text span) :=
  inferInstanceAs (Decidable (_ → _ → _))

/-- Whether a policy has a placeholder for an original of some length.  Partial
disclosure fails when its two lengths overflow to less than the original, and a
hash when no allocation has its length. -/
def Policy.Renders (policy : Policy) (length : Nat) : Prop :=
  match policy with
  | .partialReveal keepPrefix keepSuffix _ =>
      keepPrefix.toNat + keepSuffix.toNat < 2 ^ 64 ∨
        length ≤ (keepPrefix.toNat + keepSuffix.toNat) % 2 ^ 64
  | .hash _ len => len.toNat < 2 ^ 63
  | _ => True

instance (policy : Policy) (length : Nat) : Decidable (policy.Renders length) := by
  unfold Policy.Renders
  split <;> infer_instance

theorem partialReveal_isSome {original : List Char} {keepPrefix keepSuffix : UInt64}
    {fill : Char} (bound : original.length < 2 ^ 63) :
    (partialReveal original keepPrefix keepSuffix fill).isSome ↔
      keepPrefix.toNat + keepSuffix.toNat < 2 ^ 64 ∨
        original.length ≤ (keepPrefix.toNat + keepSuffix.toNat) % 2 ^ 64 := by
  have total : (UInt64.ofNat original.length).toNat = original.length :=
    UInt64.toNat_ofNat_of_lt' (Nat.lt_trans bound (by decide))
  have prefixBound := keepPrefix.toNat_lt
  have suffixBound := keepSuffix.toNat_lt
  simp only [partialReveal, UInt64.le_iff_toNat_le, UInt64.toNat_add, UInt64.toNat_sub, total]
  split
  next covers => simp only [Option.isSome_some, true_iff]; exact .inr covers
  next short =>
    split
    next inside => simp only [Option.isSome_some, true_iff]; omega
    next outside => simp only [Option.isSome_none, Bool.false_eq_true, false_iff]; omega

theorem placeholder_isSome [Hmac] {policy : Policy} {original : List Char} (entity : EntityKind)
    (bound : original.length < 2 ^ 32) :
    (placeholder policy original entity).isSome ↔ policy.Renders original.length := by
  cases policy with
  | tokenize => simp [placeholder, Policy.Renders]
  | partialReveal keepPrefix keepSuffix fill =>
      simpa [placeholder, Policy.Renders] using
        partialReveal_isSome (Nat.lt_trans bound (by decide))
  | hash key len =>
      rw [placeholder, Option.isSome_map, hmacHex, Policy.Renders]
      split
      next fits => exact iff_of_true rfl fits
      next large => exact iff_of_false Bool.false_ne_true large
  | redact redaction => cases redaction <;> simp [placeholder, Policy.Renders]

theorem slice_length {text original : List Char} {span : Span}
    (slice : span.slice text = some original) : original.length < 2 ^ 32 := by
  obtain ⟨before, after, -, -, stopEq⟩ := sliceBytes_eq_some.mp slice
  have width := length_le_utf8Len original
  have bound := span.byte.stop.toNat_lt
  omega

section Restore

variable [Hmac] {F : Type} {text : List Char} {policies : PolicySet}

omit [Hmac] in
theorem misplaced_eq_false {cursor : Nat} {source : Span}
    (placed : misplaced text cursor source = false) :
    cursor ≤ source.byte.start.toNat ∧ source.byte.start ≤ source.byte.stop ∧
      source.byte.stop.toNat ≤ utf8Len text := by
  simp only [misplaced, Bool.or_eq_false_iff, decide_eq_false_iff_not, UInt32.not_lt] at placed
  exact ⟨by omega, placed.2, by omega⟩

/-- The template of the applied findings exists when every placeholder does. -/
theorem templateFrom_isSome (findings : List (Finding F)) (cursor index : Nat)
    (boundary : IsBoundary text cursor)
    (aligned : ∀ finding ∈ findings, OnBoundaries text finding.source) :
    (templateFrom policies text cursor index (appliedFrom text cursor findings)).isSome ↔
      ∀ finding ∈ appliedFrom text cursor findings, ∀ original,
        finding.source.slice text = some original →
          (policies.policyFor finding.entity).Renders original.length := by
  induction findings generalizing cursor index with
  | nil =>
      have whole : IsBoundary text (utf8Len text) := ⟨text, [], by simp, rfl⟩
      have tail := sliceBytes_isSome boundary.le_utf8Len boundary whole
      simp [appliedFrom, templateFrom, tail]
  | cons finding findings ih =>
      simp only [List.forall_mem_cons] at aligned
      rw [appliedFrom]
      split
      next => exact ih cursor index boundary aligned.2
      next place =>
        obtain ⟨low, forward, inside⟩ := misplaced_eq_false (by simpa using place)
        obtain ⟨start, stop⟩ := aligned.1 forward inside
        obtain ⟨gap, gapEq⟩ := Option.isSome_iff_exists.mp (sliceBytes_isSome low boundary start)
        obtain ⟨original, originalEq⟩ := Option.isSome_iff_exists.mp
          (sliceBytes_isSome (UInt32.le_iff_toNat_le.mp forward) start stop)
        change finding.source.slice text = some original at originalEq
        have rest := fun index => ih finding.source.byte.stop.toNat index stop aligned.2
        simp only [templateFrom, gapEq, originalEq, Option.bind_some, List.forall_mem_cons,
          Option.some.injEq, forall_eq']
        split
        next tokenized => simp [rest, tokenized, Policy.Renders]
        next other =>
          rw [← placeholder_isSome finding.entity (slice_length originalEq), ← rest index]
          cases placeholder (policies.policyFor finding.entity) original finding.entity <;> simp

/-- The table of a template reads its labels. -/
theorem readLabel_slot {findings : List (Finding F)} {template : Template Char}
    {tokenPrefix : List Char} {entries : List RestoreEntry}
    (built : templateFrom policies text 0 0 findings = some template)
    (bounded : findings.length < 2 ^ 64)
    (originals : entries.map RestoreEntry.original = template.slots.map Slot.value) :
    ∀ slot ∈ template.slots, readLabel ⟨tokenPrefix, entries⟩ slot.label = some slot.value := by
  obtain ⟨labels, -, count⟩ := templateFrom_slots built
  intro slot member
  obtain ⟨index, inRange, rfl⟩ := List.getElem_of_mem member
  have label := congrArg (fun list => list[index]?) labels
  have original := congrArg (fun list => list[index]?) originals
  simp only [List.getElem?_map, List.getElem?_eq_getElem inRange, Option.map_some,
    List.getElem?_range' inRange, Nat.zero_add, Nat.one_mul, Option.some.injEq]
    at label original
  rw [readLabel, label, parseUsize_decimal (by omega), Option.bind_some]
  exact original

omit [Hmac] in
theorem readLabel_occurs {map : RestoreMap} {label value : List Char}
    (reads : readLabel map label = some value) :
    value ∈ map.entries.map RestoreEntry.original := by
  obtain ⟨entry, found, rfl⟩ := Option.map_eq_some_iff.mp reads
  obtain ⟨index, -, entered⟩ := Option.bind_eq_some_iff.mp found
  exact List.mem_map_of_mem (List.mem_of_getElem? entered)

omit [Hmac] in
theorem readLabel_bracket (map : RestoreMap) (label : List Char) (member : '[' ∈ label) :
    readLabel map label = none := by
  rw [readLabel, parseUsize_bracket member]
  rfl

/-- The loop of `maskFindings` with a table, as a template. -/
theorem maskFindings_template (findings : List (Finding F)) {tokenPrefix : List Char}
    (uses : policies.usesTokenize = true) (free : FirstFree text tokenPrefix) :
    Masks text policies ⟨⟨[], [], [], some ⟨tokenPrefix, []⟩⟩, 0⟩ ⟨tokenPrefix, []⟩
        (ordered findings) (templateFrom policies text 0 0
          (appliedFrom text 0 (ordered findings))) ∧
      maskFindings text findings policies = maskFrom text policies
        ⟨⟨[], [], [], some ⟨tokenPrefix, []⟩⟩, 0⟩ (ordered findings) := by
  have table : RestoreMap.forText text = some ⟨tokenPrefix, []⟩ :=
    forText_eq_some.mpr ⟨free, rfl⟩
  constructor
  · exact maskFrom_spec (ordered findings) ⟨⟨[], [], [], some ⟨tokenPrefix, []⟩⟩, 0⟩
      ⟨tokenPrefix, []⟩ rfl
  · rw [maskFindings, if_pos uses, table]
    rfl

omit [Hmac] in
theorem appliedFrom_sublist (cursor : Nat) (findings : List (Finding F)) :
    (appliedFrom text cursor findings).Sublist findings := by
  induction findings generalizing cursor with
  | nil => exact .slnil
  | cons finding findings ih =>
      rw [appliedFrom]
      split
      · exact (ih cursor).cons finding
      · exact (ih _).cons_cons finding

/-- With a free prefix and a template, restoring succeeds exactly when no plain
stretch contains the opener. -/
theorem unmask_template {findings : List (Finding F)} {template : Template Char}
    {tokenPrefix : List Char} {entries : List RestoreEntry} (free : FirstFree text tokenPrefix)
    (bounded : findings.length < 2 ^ 64)
    (built : templateFrom policies text 0 0 findings = some template)
    (originals : entries.map RestoreEntry.original = template.slots.map Slot.value) :
    unmask (template.encoded (opener tokenPrefix) closer) ⟨tokenPrefix, entries⟩ =
        .ok template.revealed ↔
      ∀ stretch ∈ template.stretches, ¬ opener tokenPrefix <:+: stretch := by
  obtain ⟨labels, values, -⟩ := templateFrom_slots built
  obtain ⟨n, -, rfl, absent, -⟩ := free
  rw [unmask, unmaskFrom_eq_ok]
  refine expandMarks_encoded_iff (opener_borderFree (colon_not_mem_prefixAt n)) (by decide)
    (readLabel_bracket _) ?_ template ?_ (readLabel_slot built bounded originals)
  · intro label value reads occurs
    have member := readLabel_occurs reads
    simp only [originals, List.mem_map] at member
    obtain ⟨slot, inside, rfl⟩ := member
    exact absent (occurs.trans (values slot inside))
  · intro slot member
    have label : slot.label ∈ template.slots.map Slot.label := List.mem_map_of_mem member
    rw [labels, List.mem_map] at label
    obtain ⟨index, -, labelEq⟩ := label
    rw [← labelEq]
    exact not_mem_decimal (by decide)

/-- Masking succeeds, and restoring its output gives the text with the spans of
irreversible policies replaced and every tokenised span back in place. -/
def Restores (text : List Char) (findings : List (Finding F)) (policies : PolicySet) : Prop :=
  ∃ out map expected, maskFindings text findings policies = some out ∧
    out.restore = some map ∧ restoredFrom policies text 0 out.applied = some expected ∧
    unmask out.text map = .ok expected

/-- When a mixed masking restores: the prefix search ends, every applied policy
has a placeholder, and no stretch of copied text and placeholders between two
tokens spells the opener. -/
structure Restorable (text : List Char) (findings : List (Finding F)) (policies : PolicySet)
    (tokenPrefix : List Char) : Prop where
  free : FirstFree text tokenPrefix
  renders : ∀ finding ∈ appliedFrom text 0 (ordered findings), ∀ original,
    finding.source.slice text = some original →
      (policies.policyFor finding.entity).Renders original.length
  clean : ∀ template, templateFrom policies text 0 0 (appliedFrom text 0 (ordered findings)) =
    some template → ∀ stretch ∈ template.stretches, ¬ opener tokenPrefix <:+: stretch

omit [Hmac] in
theorem aligned_ordered {findings : List (Finding F)}
    (aligned : ∀ finding ∈ findings, OnBoundaries text finding.source) :
    ∀ finding ∈ ordered findings, OnBoundaries text finding.source := by
  intro finding member
  exact aligned finding ((List.perm_insertionSort _ findings).mem_iff.mp member)

omit [Hmac] in
theorem applied_length_lt {findings : List (Finding F)} (bounded : findings.length < 2 ^ 64) :
    (appliedFrom text 0 (ordered findings)).length < 2 ^ 64 := by
  have lengths : (ordered findings).length = findings.length :=
    (List.perm_insertionSort _ findings).length_eq
  have fewer : (appliedFrom text 0 (ordered findings)).length ≤ (ordered findings).length :=
    (appliedFrom_sublist 0 (ordered findings)).length_le
  omega

theorem restores_of_restorable {findings : List (Finding F)} {tokenPrefix : List Char}
    (uses : policies.usesTokenize = true)
    (aligned : ∀ finding ∈ findings, OnBoundaries text finding.source)
    (bounded : findings.length < 2 ^ 64)
    (restorable : Restorable text findings policies tokenPrefix) :
    Restores text findings policies := by
  obtain ⟨masks, step⟩ := maskFindings_template findings uses restorable.free
  have start : IsBoundary text 0 := ⟨[], text, rfl, rfl⟩
  obtain ⟨template, built⟩ := Option.isSome_iff_exists.mp
    ((templateFrom_isSome (ordered findings) 0 0 start (aligned_ordered aligned)).mpr
      restorable.renders)
  rw [built] at masks
  obtain ⟨entries, originals, ran⟩ := masks
  refine ⟨_, _, template.revealed, step.trans ran, rfl, ?_, ?_⟩
  · simp [restoredFrom_eq 0 0, built]
  · exact (unmask_template restorable.free (applied_length_lt bounded) built originals).mpr
      (restorable.clean template built)

theorem restorable_of_restores {findings : List (Finding F)}
    (uses : policies.usesTokenize = true)
    (aligned : ∀ finding ∈ findings, OnBoundaries text finding.source)
    (bounded : findings.length < 2 ^ 64) (restores : Restores text findings policies) :
    ∃ tokenPrefix, Restorable text findings policies tokenPrefix := by
  obtain ⟨out, map, expected, masked, table, expectedEq, restored⟩ := restores
  have search : ∃ found, RestoreMap.forText text = some found := by
    cases searched : RestoreMap.forText text with
    | none => simp [maskFindings, uses, searched] at masked
    | some found => exact ⟨found, rfl⟩
  obtain ⟨found, searched⟩ := search
  have free := (forText_eq_some.mp searched).1
  obtain ⟨masks, step⟩ := maskFindings_template findings uses free
  have start : IsBoundary text 0 := ⟨[], text, rfl, rfl⟩
  rw [masked] at step
  cases built : templateFrom policies text 0 0 (appliedFrom text 0 (ordered findings)) with
  | none =>
      rw [built] at masks
      exact absurd (step.trans masks) (by simp)
  | some template =>
      rw [built] at masks
      obtain ⟨entries, originals, ran⟩ := masks
      rw [ran, Option.some.injEq] at step
      subst step
      simp only [Option.some.injEq, List.nil_append] at table
      subst table
      simp only [restoredFrom_eq 0 0, List.nil_append, built, Option.map_some,
        Option.some.injEq] at expectedEq
      subst expectedEq
      refine ⟨found.tokenPrefix, free, ?_, ?_⟩
      · apply (templateFrom_isSome (ordered findings) 0 0 start (aligned_ordered aligned)).mp
        rw [built]
        rfl
      intro template' built'
      rw [built, Option.some.injEq] at built'
      subst built'
      exact (unmask_template free (applied_length_lt bounded) built originals).mp restored

/-- A masking that mixes tokens with other policies restores exactly when it is
`Restorable`. -/
theorem restores_iff (text : List Char) (findings : List (Finding F)) (policies : PolicySet)
    (uses : policies.usesTokenize = true)
    (aligned : ∀ finding ∈ findings, OnBoundaries text finding.source)
    (bounded : findings.length < 2 ^ 64) :
    Restores text findings policies ↔
      ∃ tokenPrefix, Restorable text findings policies tokenPrefix := by
  constructor
  · exact restorable_of_restores uses aligned bounded
  · rintro ⟨tokenPrefix, restorable⟩
    exact restores_of_restorable uses aligned bounded restorable

end Restore

/-- A finding at a place, for examples. -/
def findingAt (entity : EntityKind) (start stop : UInt32) : Finding Exact where
  entity := entity
  source := ⟨⟨start, stop⟩, ⟨start, stop⟩⟩
  normalized := ⟨⟨start, stop⟩, ⟨start, stop⟩⟩
  certainty := .probable
  score := Scalar.lit 1
  evidence := ⟨"", .passed, [], [], {}, false⟩

namespace Sample

/-- The digest of the syllable `한` under the key `k`. -/
scoped instance : Hmac where
  sha256 _ _ :=
    #v[0x52, 0x92, 0xb3, 0x4b, 0xcf, 0xa6, 0x3b, 0x64,
      0x20, 0x7d, 0x04, 0x4a, 0x0b, 0x39, 0xef, 0x41,
      0x66, 0x2e, 0xfd, 0x27, 0x9e, 0x23, 0x7f, 0x26,
      0x6a, 0x90, 0xc7, 0x50, 0x49, 0xd8, 0x9d, 0xea]

end Sample

/-- Phone numbers become tokens, addresses a fixed text. -/
def tokensBeside (text : List Char) : PolicySet :=
  ⟨.tokenize, [(.email, .redact (.fixed text))]⟩

theorem firstFree_base {text : List Char} (absent : ¬ opener basePrefix <:+: text) :
    FirstFree text basePrefix :=
  ⟨0, by decide, rfl, absent, fun m earlier => absurd earlier (by simp)⟩

section

open Sample

theorem restores_iff_redacted :
    ((tokensBeside ['#']).usesTokenize = true ∧
      (∀ finding ∈ [findingAt .email 1 2, findingAt .phone 0 1],
        OnBoundaries ['a', 'b'] finding.source)) ∧
      Restores ['a', 'b'] [findingAt .email 1 2, findingAt .phone 0 1] (tokensBeside ['#']) := by
  refine ⟨⟨by decide, by decide⟩, (restores_iff _ _ _ (by decide) (by decide) (by decide)).mpr
    ⟨basePrefix, firstFree_base (by decide), ?_, ?_⟩⟩
  · intro finding member original _
    have policies : ∀ entity : EntityKind, ((tokensBeside ['#']).policyFor entity).Renders
        original.length := by
      intro entity
      cases entity <;> trivial
    exact policies finding.entity
  · intro template built
    have same : templateFrom (tokensBeside ['#']) ['a', 'b'] 0 0 (appliedFrom ['a', 'b'] 0
        (ordered [findingAt .email 1 2, findingAt .phone 0 1])) =
          some ⟨[], [⟨['0'], ['a'], ['#']⟩]⟩ := by rfl
    rw [same, Option.some.injEq] at built
    subst built
    decide

/-- A fixed text that spells a token is restored to somebody's original. -/
theorem not_restores_spelled :
    (tokensBeside "[[PII:0]]".toList).usesTokenize = true ∧
      (∀ finding ∈ [findingAt .phone 0 1, findingAt .email 1 2],
        OnBoundaries ['a', 'b'] finding.source) ∧
      ¬ Restores ['a', 'b'] [findingAt .phone 0 1, findingAt .email 1 2]
        (tokensBeside "[[PII:0]]".toList) := by
  refine ⟨by decide, by decide, ?_⟩
  intro restores
  obtain ⟨tokenPrefix, restorable⟩ :=
    restorable_of_restores (by decide) (by decide) (by decide) restores
  obtain ⟨n, -, rfl, -, earlier⟩ := restorable.free
  cases n with
  | succ n => exact absurd (earlier 0 (by simp)) (by decide)
  | zero =>
      have built : templateFrom (tokensBeside "[[PII:0]]".toList) ['a', 'b'] 0 0
          (appliedFrom ['a', 'b'] 0 (ordered [findingAt .phone 0 1, findingAt .email 1 2])) =
            some ⟨[], [⟨['0'], ['a'], "[[PII:0]]".toList⟩]⟩ := by rfl
      exact restorable.clean _ built "[[PII:0]]".toList (by decide) (by decide)

end

end AiCoreStack.Pii
