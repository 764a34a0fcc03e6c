import AiCoreStack.Pii.MaskRoundTrip

/-!
# The search for a token prefix

The search in `RestoreMap::for_text` has no bound of its own.  Its prefixes differ from each other,
so as many openers as it has passed over occur in the text.  The counter is a `u32`: a text with
the openers of all its values is searched without end.
-/

namespace AiCoreStack.Pii

open AiCoreStack.Foundation
open String (utf8Len)

/-- The openers of the search that a text contains. -/
def openersIn (text : List Char) : Set (List Char) :=
  {o | ∃ n ≤ 2 ^ 32, o = opener (prefixAt n) ∧ o <:+: text}

/-- The search in a build with overflow checks: a counter that does not fit ends it. -/
def RestoreMap.searchChecked (text : List Char) : Nat → Nat → List Char → Option (List Char)
  | 0, _, _ => none
  | fuel + 1, nth, tokenPrefix =>
      if (splitOnce (opener tokenPrefix) text).isSome then
        if nth + 1 < 2 ^ 32 then
          searchChecked text fuel (nth + 1) (basePrefix ++ decimal nth)
        else none
      else some tokenPrefix

open RestoreMap

/-! ## Rounds of the search -/

theorem opener_prefixAt_injective : Function.Injective fun n => opener (prefixAt n) := by
  intro left right same
  exact prefixAt_injective (opener_injective (colon_not_mem_prefixAt left)
    (colon_not_mem_prefixAt right) (congrArg (· ++ []) same))

theorem finite_openersIn (text : List Char) : (openersIn text).Finite := by
  refine ((Finset.range (2 ^ 32 + 1)).finite_toSet.image fun n => opener (prefixAt n)).subset ?_
  rintro o ⟨n, small, rfl, -⟩
  exact Set.mem_image_of_mem _ (Finset.mem_coe.mpr (Finset.mem_range.mpr (Nat.lt_succ_of_le small)))

/-- The openers that the search has passed over are openers in the text. -/
theorem le_ncard_openersIn {text : List Char} {n : Nat} (small : n ≤ 2 ^ 32 + 1)
    (occur : ∀ m < n, opener (prefixAt m) <:+: text) : n ≤ (openersIn text).ncard := by
  have card : ((fun m => opener (prefixAt m)) '' (Finset.range n : Set Nat)).ncard = n := by
    rw [Set.ncard_image_of_injective _ opener_prefixAt_injective, Set.ncard_coe_finset,
      Finset.card_range]
  rw [← card]
  refine Set.ncard_le_ncard ?_ (finite_openersIn text)
  rintro _ ⟨m, below, rfl⟩
  have less : m < n := Finset.mem_range.mp below
  exact ⟨m, by omega, rfl, occur m less⟩

/-- More rounds find the same. -/
theorem searchPrefix_mono {text tokenPrefix found : List Char} {fuel fuel' : Nat} {nth : UInt32}
    (more : fuel ≤ fuel') (ran : searchPrefix text fuel nth tokenPrefix = some found) :
    searchPrefix text fuel' nth tokenPrefix = some found := by
  induction fuel generalizing fuel' nth tokenPrefix with
  | zero => cases ran
  | succ fuel ih =>
      obtain ⟨fuel', rfl⟩ := Nat.exists_eq_succ_of_ne_zero (by omega : fuel' ≠ 0)
      rw [searchPrefix] at ran ⊢
      split at ran
      · next occurs =>
          rw [if_pos occurs]
          exact ih (Nat.le_of_succ_le_succ more) ran
      · next absent =>
          rw [if_neg absent]
          exact ran

/-- A text with all openers is searched without end. -/
theorem searchPrefix_eq_none {text : List Char}
    (all : ∀ n ≤ 2 ^ 32, opener (prefixAt n) <:+: text) (fuel n : Nat) (small : n ≤ 2 ^ 32)
    (nth : UInt32) : searchPrefix text fuel nth (prefixAt n) = none := by
  induction fuel generalizing n nth with
  | zero => rfl
  | succ fuel ih =>
      rw [searchPrefix, if_pos (splitOnce_isSome_iff.mpr (all n small))]
      exact ih (nth.toNat + 1) (UInt32.toNat_lt nth) (nth + 1)

/-- A text that lacks an opener is searched up to the first one that it lacks. -/
theorem exists_first {text : List Char} (free : ∃ n ≤ 2 ^ 32, ¬ opener (prefixAt n) <:+: text) :
    ∃ n ≤ 2 ^ 32, (∀ m < n, opener (prefixAt m) <:+: text) ∧
      ¬ opener (prefixAt n) <:+: text ∧
      searchPrefix text (n + 1) 0 basePrefix = some (prefixAt n) := by
  obtain ⟨small, absent⟩ := Nat.find_spec free
  have occur : ∀ m < Nat.find free, opener (prefixAt m) <:+: text := by
    intro m below
    have occurs := Nat.find_min free below
    simp only [not_and, not_not] at occurs
    exact occurs (by omega)
  have search := (searchPrefix_eq_some (Nat.find free + 1) 0 (by omega)).mpr
    ⟨Nat.find free, Nat.zero_le _, by omega, rfl, absent, fun m _ => occur m⟩
  exact ⟨Nat.find free, small, occur, absent, search⟩

theorem searchChecked_eq_some {text : List Char} {n : Nat} (small : n < 2 ^ 32)
    (absent : ¬ opener (prefixAt n) <:+: text) (fuel start : Nat) (low : start ≤ n)
    (high : n < start + fuel) (occur : ∀ m, start ≤ m → m < n → opener (prefixAt m) <:+: text) :
    searchChecked text fuel start (prefixAt start) = some (prefixAt n) := by
  induction fuel generalizing start with
  | zero => omega
  | succ fuel ih =>
      rw [searchChecked]
      obtain rfl | below := Nat.eq_or_lt_of_le low
      · rw [if_neg fun occurs => absent (splitOnce_isSome_iff.mp occurs)]
      · rw [if_pos (splitOnce_isSome_iff.mpr (occur start (Nat.le_refl _) below)),
          if_pos (by omega)]
        exact ih (start + 1) below (by omega) fun m above => occur m (Nat.le_of_succ_le above)

/-- A search ends when the text lacks one of the openers.  It then ends after at most one more
round than there are openers in the text, with one that is not.  The counter of a text below the
offset limit never wraps around. -/
theorem searchPrefix_fresh (text : List Char) :
    ((∃ fuel found, searchPrefix text fuel 0 basePrefix = some found) ↔
      ∃ n ≤ 2 ^ 32, ¬ opener (prefixAt n) <:+: text) ∧
    (∀ fuel found, searchPrefix text fuel 0 basePrefix = some found →
      searchPrefix text ((openersIn text).ncard + 1) 0 basePrefix = some found ∧
      forText text = some ⟨found, []⟩ ∧ ¬ opener found <:+: text) ∧
    (utf8Len text < 2 ^ 32 → ∃ found,
      searchPrefix text ((openersIn text).ncard + 1) 0 basePrefix = some found ∧
      searchChecked text ((openersIn text).ncard + 1) 0 basePrefix = some found) := by
  have ends : (∃ fuel found, searchPrefix text fuel 0 basePrefix = some found) ↔
      ∃ n ≤ 2 ^ 32, ¬ opener (prefixAt n) <:+: text := by
    constructor
    · rintro ⟨fuel, found, ran⟩
      by_contra none
      have all : ∀ n ≤ 2 ^ 32, opener (prefixAt n) <:+: text := by
        simpa only [not_exists, not_and, not_not] using none
      have endless : searchPrefix text fuel 0 basePrefix = Option.none :=
        searchPrefix_eq_none all fuel 0 (Nat.zero_le _) 0
      rw [endless] at ran
      cases ran
    · intro free
      obtain ⟨n, -, -, -, ran⟩ := exists_first free
      exact ⟨n + 1, _, ran⟩
  refine ⟨ends, fun fuel found ran => ?_, fun fits => ?_⟩
  · obtain ⟨n, small, occur, absent, first⟩ := exists_first (ends.mp ⟨fuel, found, ran⟩)
    have same : some found = some (prefixAt n) := by
      rw [← searchPrefix_mono (Nat.le_max_left fuel (n + 1)) ran]
      exact searchPrefix_mono (Nat.le_max_right fuel (n + 1)) first
    obtain rfl := Option.some.inj same
    refine ⟨searchPrefix_mono ?_ first, ?_, absent⟩
    · exact Nat.succ_le_succ (le_ncard_openersIn (by omega) occur)
    · exact forText_eq_some.mpr ⟨⟨n, small, rfl, absent, occur⟩, rfl⟩
  · obtain ⟨_, n, small, rfl, absent, -⟩ := exists_firstFree fits
    obtain ⟨n, small, occur, absent, search⟩ := exists_first ⟨n, small, absent⟩
    have few : n ≤ text.length := card_openers_le occur
    have bound : n ≤ (openersIn text).ncard := le_ncard_openersIn (by omega) occur
    have below : n < 2 ^ 32 := few.trans_lt (Fits.length_lt fits)
    exact ⟨prefixAt n, searchPrefix_mono (Nat.succ_le_succ bound) search,
      searchChecked_eq_some below absent _ 0 (Nat.zero_le n) (by omega) fun m _ => occur m⟩

/-! ## A text with all openers -/

/-- The openers that are tried first, one behind the other. -/
def crowded (count : Nat) : List Char := (List.range count).flatMap fun n => opener (prefixAt n)

theorem opener_infix_crowded {count n : Nat} (below : n < count) :
    opener (prefixAt n) <:+: crowded count := by
  rw [crowded, List.flatMap_def]
  exact List.infix_of_mem_flatten (List.mem_map_of_mem (List.mem_range.mpr below))

/-- The search for a prefix that this text lacks has no end. -/
theorem searchPrefix_crowded :
    ¬ ∃ fuel found, searchPrefix (crowded (2 ^ 32 + 1)) fuel 0 basePrefix = some found := by
  rintro ⟨fuel, found, ran⟩
  have endless : searchPrefix (crowded (2 ^ 32 + 1)) fuel 0 basePrefix = none :=
    searchPrefix_eq_none (fun n small => opener_infix_crowded (Nat.lt_succ_of_le small)) fuel 0
      (Nat.zero_le _) 0
  rw [endless] at ran
  cases ran

end AiCoreStack.Pii
