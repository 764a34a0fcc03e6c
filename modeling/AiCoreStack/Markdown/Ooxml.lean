import AiCoreStack.Foundation.StableSort

/-!
# Parts of a package

Model of the lookups of `parsers/ooxml.rs`.  The entries of the hash map are a list with distinct
names, in the order of an iteration.  `take_number` counts in `u64` and saturates.
-/

namespace AiCoreStack.Markdown.Ooxml

open AiCoreStack.Foundation

/-! ## Natural order -/

/-- `u64::MAX` -/
def u64Max : Nat := 2 ^ 64 - 1

def saturate (n : Nat) : Nat := min n u64Max

def digitValue (c : Char) : Nat := c.toNat - '0'.toNat

/-- The loop of `take_number`: the number behind `n`, and the text behind the number. -/
def takeNumberFrom (n : Nat) : List Char → Nat × List Char
  | [] => (n, [])
  | c :: rest =>
      if c.isDigit then takeNumberFrom (saturate (saturate (n * 10) + digitValue c)) rest
      else (n, c :: rest)

/-- `take_number` -/
def takeNumber (text : List Char) : Nat × List Char := takeNumberFrom 0 text

theorem length_takeNumberFrom (text : List Char) (n : Nat) :
    (takeNumberFrom n text).2.length ≤ text.length := by
  induction text generalizing n with
  | nil => exact Nat.le_refl _
  | cons c rest ih =>
      rw [takeNumberFrom]
      split
      · exact (ih _).trans (Nat.le_succ _)
      · exact Nat.le_refl _

theorem length_takeNumber {c : Char} (digit : c.isDigit = true) (rest : List Char) :
    (takeNumber (c :: rest)).2.length < (c :: rest).length := by
  rw [takeNumber, takeNumberFrom, if_pos digit]
  exact Nat.lt_succ_of_le (length_takeNumberFrom rest _)

/-- `natural_cmp` -/
def naturalCmp : List Char → List Char → Ordering
  | [], [] => .eq
  | [], _ :: _ => .lt
  | _ :: _, [] => .gt
  | ca :: restA, cb :: restB =>
      if _digits : ca.isDigit = true ∧ cb.isDigit = true then
        (compare (takeNumber (ca :: restA)).1 (takeNumber (cb :: restB)).1).then
          (naturalCmp (takeNumber (ca :: restA)).2 (takeNumber (cb :: restB)).2)
      else (compare ca.toNat cb.toNat).then (naturalCmp restA restB)
termination_by a => a.length
decreasing_by
  · exact length_takeNumber _digits.1 restA
  · exact Nat.lt_succ_self _

/-! ## Packages -/

structure OoxmlPackage where
  entries : List (List Char × List UInt8)
  distinct : (entries.map Prod.fst).Nodup

namespace OoxmlPackage

/-- `get_by_suffix`: the first entry of the iteration. -/
def getBySuffix (package : OoxmlPackage) (suffix : List Char) : Option (List UInt8) :=
  (package.entries.find? fun entry => suffix.isSuffixOf entry.1).map Prod.snd

/-- The names that `names_matching` collects. -/
def collected (package : OoxmlPackage) (front suffix : List Char) : List (List Char) :=
  (package.entries.map Prod.fst).filter fun name => front.isPrefixOf name && suffix.isSuffixOf name

/-- `names_matching` -/
def namesMatching (package : OoxmlPackage) (front suffix : List Char) : List (List Char) :=
  (package.collected front suffix).mergeSort fun a b => (naturalCmp a b).isLE

/-- The same map, iterated in another order. -/
def Rearranges (package other : OoxmlPackage) : Prop := package.entries.Perm other.entries

end OoxmlPackage

/-! ## Tokens -/

/-- A character is a token with its code point, and a number is one with its value in place of
the digit zero. -/
abbrev Token := Nat × Nat

def charToken (c : Char) : Token := (c.toNat, 0)

def numberToken (n : Nat) : Token := ('0'.toNat, n)

/-- The tokens of a name, behind the digits of an open number. -/
def tokensFrom : Option Nat → List Char → List Token
  | none, [] => []
  | some n, [] => [numberToken n]
  | none, c :: rest =>
      if c.isDigit then tokensFrom (some (saturate (digitValue c))) rest
      else charToken c :: tokensFrom none rest
  | some n, c :: rest =>
      if c.isDigit then tokensFrom (some (saturate (saturate (n * 10) + digitValue c))) rest
      else numberToken n :: charToken c :: tokensFrom none rest

/-- The characters of a name, with its numbers as far as `u64` holds them. -/
def tokens (name : List Char) : List Token := tokensFrom none name

theorem tokensFrom_some (text : List Char) (n : Nat) :
    tokensFrom (some n) text =
      numberToken (takeNumberFrom n text).1 :: tokens (takeNumberFrom n text).2 := by
  induction text generalizing n with
  | nil => rfl
  | cons c rest ih =>
      rw [tokensFrom, takeNumberFrom]
      cases digit : c.isDigit with
      | true => rw [if_pos rfl, if_pos rfl, ih]
      | false =>
          rw [if_neg (by decide), if_neg (by decide), tokens, tokensFrom, digit, if_neg (by decide)]

theorem tokens_digit {c : Char} (digit : c.isDigit = true) (rest : List Char) :
    tokens (c :: rest) =
      numberToken (takeNumber (c :: rest)).1 :: tokens (takeNumber (c :: rest)).2 := by
  have start : saturate (saturate (0 * 10) + digitValue c) = saturate (digitValue c) := by
    simp [saturate]
  rw [tokens, tokensFrom, if_pos digit, tokensFrom_some, takeNumber, takeNumberFrom, if_pos digit,
    start]

theorem tokens_char {c : Char} (plain : c.isDigit = false) (rest : List Char) :
    tokens (c :: rest) = charToken c :: tokens rest := by
  rw [tokens, tokensFrom, plain, if_neg (by decide)]
  rfl

/-! ## The order of names -/

def compareToken : Token → Token → Ordering := compareLex (compareOn Prod.fst) (compareOn Prod.snd)

def compareTokens : List Token → List Token → Ordering := List.compareLex compareToken

instance : Std.TransCmp compareToken := inferInstanceAs (Std.TransCmp (compareLex _ _))

instance : Std.LawfulEqCmp compareToken where
  eq_of_compare := by
    intro a b same
    rw [compareToken, compareLex, Ordering.then_eq_eq] at same
    exact Prod.ext (compare_eq_iff_eq.mp same.1) (compare_eq_iff_eq.mp same.2)

instance : Std.TransCmp compareTokens := inferInstanceAs (Std.TransCmp (List.compareLex _))

instance : Std.LawfulEqCmp compareTokens := inferInstanceAs (Std.LawfulEqCmp (List.compareLex _))

theorem compareTokens_cons (a b : Token) (restA restB : List Token) :
    compareTokens (a :: restA) (b :: restB) =
      (compareToken a b).then (compareTokens restA restB) :=
  List.compareLex_cons_cons

/-- A digit compares to another character as zero does. -/
theorem compare_digit {ca cb : Char} (digit : ca.isDigit = true) (plain : cb.isDigit = false) :
    compare '0'.toNat cb.toNat = compare ca.toNat cb.toNat ∧
      compare ca.toNat cb.toNat ≠ .eq := by
  obtain ⟨low, high⟩ := Char.isDigit_iff_toNat.mp digit
  have apart : ¬ ('0'.toNat ≤ cb.toNat ∧ cb.toNat ≤ '9'.toNat) := by
    rw [← Char.isDigit_iff_toNat, plain]
    decide
  have zero : '0'.toNat = 48 := rfl
  have nine : '9'.toNat = 57 := rfl
  by_cases below : cb.toNat < 48
  · have less : compare ca.toNat cb.toNat = .gt := compare_gt_iff_gt.mpr (by omega)
    have start : compare '0'.toNat cb.toNat = .gt := compare_gt_iff_gt.mpr (by omega)
    rw [less, start]
    exact ⟨rfl, by decide⟩
  · have more : compare ca.toNat cb.toNat = .lt := compare_lt_iff_lt.mpr (by omega)
    have start : compare '0'.toNat cb.toNat = .lt := compare_lt_iff_lt.mpr (by omega)
    rw [more, start]
    exact ⟨rfl, by decide⟩

theorem then_of_ne {order : Ordering} (decided : order ≠ .eq) (later : Ordering) :
    order.then later = order := by
  cases order with
  | lt => rfl
  | eq => exact absurd rfl decided
  | gt => rfl

/-- Two first characters that are not both digits decide as their tokens do. -/
theorem compareTokens_of_other {ca cb : Char} (other : ¬ (ca.isDigit = true ∧ cb.isDigit = true))
    (restA restB : List Char) :
    compareTokens (tokens (ca :: restA)) (tokens (cb :: restB)) =
      (compare ca.toNat cb.toNat).then (compareTokens (tokens restA) (tokens restB)) := by
  cases digitA : ca.isDigit with
  | true =>
      have plain : cb.isDigit = false := by
        cases digitB : cb.isDigit with
        | true => exact absurd ⟨digitA, digitB⟩ other
        | false => rfl
      obtain ⟨zero, decided⟩ := compare_digit digitA plain
      rw [tokens_digit digitA, tokens_char plain, compareTokens_cons, then_of_ne decided, ← zero]
      rw [← zero] at decided
      exact (congrArg (fun order => Ordering.then order _) (then_of_ne decided _)).trans
        (then_of_ne decided _)
  | false =>
      cases digitB : cb.isDigit with
      | true =>
          obtain ⟨zero, decided⟩ := compare_digit digitB digitA
          have turned : compare ca.toNat '0'.toNat = compare ca.toNat cb.toNat := by
            rw [← Nat.compare_swap, zero, Nat.compare_swap]
          have decided' : compare ca.toNat cb.toNat ≠ .eq := by
            rw [← Nat.compare_swap]
            exact fun tied => decided (Ordering.swap_eq_eq.mp tied)
          rw [tokens_digit digitB, tokens_char digitA, compareTokens_cons, then_of_ne decided',
            ← turned]
          rw [← turned] at decided'
          exact (congrArg (fun order => Ordering.then order _) (then_of_ne decided' _)).trans
            (then_of_ne decided' _)
      | false =>
          rw [tokens_char digitA, tokens_char digitB, compareTokens_cons]
          congr 1
          change (compare ca.toNat cb.toNat).then .eq = _
          cases compare ca.toNat cb.toNat <;> rfl

theorem tokens_cons_ne (c : Char) (rest : List Char) :
    ∃ token later, tokens (c :: rest) = token :: later := by
  cases digit : c.isDigit with
  | true => exact ⟨_, _, tokens_digit digit rest⟩
  | false => exact ⟨_, _, tokens_char digit rest⟩

/-- Names are compared by their tokens. -/
theorem naturalCmp_eq (a b : List Char) : naturalCmp a b = compareTokens (tokens a) (tokens b) := by
  induction a, b using naturalCmp.induct with
  | case1 =>
      rw [naturalCmp]
      rfl
  | case2 cb restB =>
      obtain ⟨token, later, split⟩ := tokens_cons_ne cb restB
      rw [naturalCmp, split]
      rfl
  | case3 ca restA =>
      obtain ⟨token, later, split⟩ := tokens_cons_ne ca restA
      rw [naturalCmp, split]
      rfl
  | case4 ca restA cb restB digits ih =>
      rw [naturalCmp, dif_pos digits, ih, tokens_digit digits.1, tokens_digit digits.2,
        compareTokens_cons]
      congr 1
  | case5 ca restA cb restB other ih =>
      rw [naturalCmp, dif_neg other, ih, compareTokens_of_other other]

theorem naturalCmp_swap (a b : List Char) : (naturalCmp a b).swap = naturalCmp b a := by
  rw [naturalCmp_eq, naturalCmp_eq]
  exact Std.OrientedCmp.eq_swap.symm

theorem naturalCmp_trans {a b c : List Char} (first : (naturalCmp a b).isLE = true)
    (second : (naturalCmp b c).isLE = true) : (naturalCmp a c).isLE = true := by
  rw [naturalCmp_eq] at first second ⊢
  exact Std.TransCmp.isLE_trans first second

theorem naturalCmp_eq_iff (a b : List Char) : naturalCmp a b = .eq ↔ tokens a = tokens b := by
  rw [naturalCmp_eq]
  exact Std.LawfulEqCmp.compare_eq_iff_eq

theorem isLE_naturalCmp_total (a b : List Char) :
    (naturalCmp a b).isLE = true ∨ (naturalCmp b a).isLE = true := by
  rw [← naturalCmp_swap a b]
  cases naturalCmp a b <;> decide

theorem tokens_eq_of_isLE {a b : List Char} (below : (naturalCmp a b).isLE = true)
    (above : (naturalCmp b a).isLE = true) : tokens a = tokens b := by
  rw [← naturalCmp_eq_iff]
  rw [← naturalCmp_swap a b] at above
  cases order : naturalCmp a b with
  | lt => exact absurd above (by rw [order]; decide)
  | eq => rfl
  | gt => exact absurd below (by rw [order]; decide)

/-! ## Numbers in names -/

/-- A number in a name, with the text in front of it. -/
structure Numbered (name : List Char) where
  front : List Char
  digits : List Char
  behind : List Char
  whole : name = front ++ (digits ++ behind)
  nonempty : digits ≠ []
  all : ∀ c ∈ digits, c.isDigit = true
  opens : ∀ c ∈ front.getLast?, c.isDigit = false
  closes : ∀ c ∈ behind.head?, c.isDigit = false

/-- The value of a number. -/
def value (digits : List Char) : Nat := Nat.ofDigitChars 10 digits 0

/-- Where two names tie up to a number each, the smaller number decides, whatever follows the
numbers. -/
def ByValue (names : List (List Char)) : Prop :=
  ∀ a ∈ names, ∀ b ∈ names, ∀ (i : Numbered a) (j : Numbered b),
    naturalCmp i.front j.front = .eq → value i.digits < value j.digits →
      ∀ behind behind', (∀ c ∈ behind.head?, c.isDigit = false) →
        (∀ c ∈ behind'.head?, c.isDigit = false) →
        naturalCmp (i.front ++ (i.digits ++ behind)) (j.front ++ (j.digits ++ behind')) = .lt

theorem takeNumberFrom_append {digits behind : List Char} (all : ∀ c ∈ digits, c.isDigit = true)
    (closes : ∀ c ∈ behind.head?, c.isDigit = false) (n : Nat) :
    takeNumberFrom (saturate n) (digits ++ behind) =
      (saturate (Nat.ofDigitChars 10 digits n), behind) := by
  induction digits generalizing n with
  | nil =>
      cases behind with
      | nil => rfl
      | cons c rest =>
          have plain : c.isDigit = false := closes c rfl
          rw [List.nil_append, takeNumberFrom, plain, if_neg (by decide)]
          rfl
  | cons c digits ih =>
      obtain ⟨here, later⟩ := List.forall_mem_cons.mp all
      have step : saturate (saturate (saturate n * 10) + digitValue c) =
          saturate (n * 10 + digitValue c) := by
        simp only [saturate]
        omega
      rw [List.cons_append, takeNumberFrom, if_pos here, step, ih later, Nat.ofDigitChars_cons,
        Nat.mul_comm n]
      rfl

theorem tokensFrom_append_cons {c : Char} (plain : c.isDigit = false) (front rest : List Char)
    (number : Option Nat) :
    tokensFrom number (front ++ c :: rest) = tokensFrom number (front ++ [c]) ++ tokens rest := by
  induction front generalizing number with
  | nil => cases number <;> simp [tokensFrom, plain, tokens]
  | cons d front ih =>
      cases digit : d.isDigit with
      | true => cases number <;> simp [tokensFrom, digit, ih]
      | false => cases number <;> simp [tokensFrom, digit, ih]

theorem tokens_append {front : List Char} (opens : ∀ c ∈ front.getLast?, c.isDigit = false)
    (rest : List Char) : tokens (front ++ rest) = tokens front ++ tokens rest := by
  rcases List.eq_nil_or_concat front with rfl | ⟨init, c, rfl⟩
  · rfl
  · have plain : c.isDigit = false := opens c (by simp)
    rw [List.concat_eq_append, List.append_assoc, List.singleton_append, tokens, tokens,
      tokensFrom_append_cons plain]

theorem tokens_digits {digits behind : List Char} (nonempty : digits ≠ [])
    (all : ∀ c ∈ digits, c.isDigit = true) (closes : ∀ c ∈ behind.head?, c.isDigit = false) :
    tokens (digits ++ behind) = numberToken (saturate (value digits)) :: tokens behind := by
  obtain ⟨c, rest, rfl⟩ := List.exists_cons_of_ne_nil nonempty
  have taken := takeNumberFrom_append all closes 0
  rw [List.cons_append, tokens_digit (all c List.mem_cons_self), takeNumber]
  have start : saturate 0 = 0 := rfl
  rw [start] at taken
  rw [← List.cons_append, taken]
  rfl

theorem compareTokens_append (front left right : List Token) :
    compareTokens (front ++ left) (front ++ right) = compareTokens left right := by
  induction front with
  | nil => rfl
  | cons token front ih =>
      have tied : compareToken token token = .eq := Std.ReflCmp.compare_self
      rw [List.cons_append, List.cons_append, compareTokens_cons, tied, ih]
      rfl

/-- Of two different numbers that follow the same tokens, the smaller one is below `u64::MAX`. -/
def NumbersFit (names : List (List Char)) : Prop :=
  ∀ a ∈ names, ∀ b ∈ names, ∀ (i : Numbered a) (j : Numbered b),
    tokens i.front = tokens j.front → value i.digits < value j.digits → value i.digits < u64Max

/-- Numbers are ordered by value exactly when no two of them that meet are too large. -/
theorem byValue_iff (names : List (List Char)) : ByValue names ↔ NumbersFit names := by
  have compared {a b : List Char} (i : Numbered a) (j : Numbered b)
      (same : tokens i.front = tokens j.front) {behind behind' : List Char}
      (closes : ∀ c ∈ behind.head?, c.isDigit = false)
      (closes' : ∀ c ∈ behind'.head?, c.isDigit = false) :
      naturalCmp (i.front ++ (i.digits ++ behind)) (j.front ++ (j.digits ++ behind')) =
        (compare (saturate (value i.digits)) (saturate (value j.digits))).then
          (compareTokens (tokens behind) (tokens behind')) := by
    rw [naturalCmp_eq, tokens_append i.opens, tokens_append j.opens, same, compareTokens_append,
      tokens_digits i.nonempty i.all closes, tokens_digits j.nonempty j.all closes',
      compareTokens_cons]
    congr 1
  constructor
  · intro byValue a inA b inB i j same less
    by_contra large
    have tied := byValue a inA b inB i j ((naturalCmp_eq_iff _ _).mpr same) less [] []
      (fun _ absent => absurd absent (by simp)) fun _ absent => absurd absent (by simp)
    have full : saturate (value i.digits) = saturate (value j.digits) := by
      simp only [saturate]
      omega
    rw [compared i j same (fun _ absent => absurd absent (by simp))
      fun _ absent => absurd absent (by simp), compare_eq_iff_eq.mpr full] at tied
    exact absurd tied (by decide)
  · intro fit a inA b inB i j same less behind behind' closes closes'
    have same := (naturalCmp_eq_iff _ _).mp same
    have small := fit a inA b inB i j same less
    have apart : saturate (value i.digits) < saturate (value j.digits) := by
      simp only [saturate]
      omega
    rw [compared i j same closes closes', compare_lt_iff_lt.mpr apart]
    rfl

/-! ## Lookups -/

/-- Whatever the order of the iteration, the lookups give the same, and the names are sorted by
a total order that reads numbers. -/
structure Stable (package : OoxmlPackage) (front suffix part : List Char) : Prop where
  swap : ∀ a b, (naturalCmp a b).swap = naturalCmp b a
  trans : ∀ a b c, (naturalCmp a b).isLE = true → (naturalCmp b c).isLE = true →
    (naturalCmp a c).isLE = true
  identical : ∀ a ∈ package.namesMatching front suffix,
    ∀ b ∈ package.namesMatching front suffix, naturalCmp a b = .eq → a = b
  byValue : ByValue (package.namesMatching front suffix)
  names : ∀ other, package.Rearranges other →
    other.namesMatching front suffix = package.namesMatching front suffix
  entry : ∀ other, package.Rearranges other → other.getBySuffix part = package.getBySuffix part

namespace OoxmlPackage

theorem nodup_collected (package : OoxmlPackage) (front suffix : List Char) :
    (package.collected front suffix).Nodup :=
  package.distinct.filter _

theorem mem_namesMatching {package : OoxmlPackage} {front suffix name : List Char} :
    name ∈ package.namesMatching front suffix ↔ name ∈ package.collected front suffix :=
  List.mem_mergeSort

/-- The names come in one order exactly when no two of them have the same tokens. -/
theorem namesMatching_iff (package : OoxmlPackage) (front suffix : List Char) :
    (∀ other, package.Rearranges other →
      other.namesMatching front suffix = package.namesMatching front suffix) ↔
      ∀ a ∈ package.collected front suffix, ∀ b ∈ package.collected front suffix,
        tokens a = tokens b → a = b := by
  have on : StableSort.PreordersOn (fun a b => (naturalCmp a b).isLE)
      (package.collected front suffix) :=
    ⟨fun _ _ _ _ _ _ => naturalCmp_trans, fun a _ b _ => by
      rw [Bool.or_eq_true]
      exact isLE_naturalCmp_total a b⟩
  have nodup := package.nodup_collected front suffix
  constructor
  · intro stable a inA b inB same
    have reversed : (package.entries.map Prod.fst).Perm (package.entries.reverse.map Prod.fst) :=
      (List.reverse_perm _).symm.map _
    have kept := stable ⟨package.entries.reverse, reversed.nodup_iff.mp package.distinct⟩
      (List.reverse_perm _).symm
    rw [namesMatching, collected, List.map_reverse, List.filter_reverse] at kept
    have tied := (naturalCmp_eq_iff a b).mpr same
    have below : (naturalCmp a b).isLE = true := by rw [tied]; rfl
    have above : (naturalCmp b a).isLE = true := by rw [← naturalCmp_swap a b, tied]; rfl
    exact on.eq_of_reverse nodup kept.symm a inA b inB below above
  · intro apart other rearranged
    have moved : (package.collected front suffix).Perm (other.collected front suffix) :=
      (rearranged.map Prod.fst).filter _
    apply Eq.symm
    apply on.mergeSort_of_perm nodup moved
    exact fun a inA b inB below above => apart a inA b inB (tokens_eq_of_isLE below above)

/-- The entry is one exactly when every entry with the suffix holds the same. -/
theorem getBySuffix_iff (package : OoxmlPackage) (part : List Char) :
    (∀ other, package.Rearranges other → other.getBySuffix part = package.getBySuffix part) ↔
      ∀ entry ∈ package.entries, ∀ entry' ∈ package.entries,
        part <:+ entry.1 → part <:+ entry'.1 → entry.2 = entry'.2 := by
  constructor
  · intro stable
    have first {entry : List Char × List UInt8} (member : entry ∈ package.entries)
        (ends : part <:+ entry.1) : package.getBySuffix part = some entry.2 := by
      obtain ⟨before, behind, split⟩ := List.append_of_mem member
      have moved : package.entries.Perm (entry :: (before ++ behind)) := by
        rw [split]
        exact List.perm_middle
      have found := stable ⟨entry :: (before ++ behind),
        (moved.map Prod.fst).nodup_iff.mp package.distinct⟩ moved
      have head : (entry :: (before ++ behind)).find? (fun entry => part.isSuffixOf entry.1) =
          some entry := by
        rw [List.find?_cons, List.isSuffixOf_iff_suffix.mpr ends]
      rw [← found, getBySuffix, head]
      rfl
    intro entry member entry' member' ends ends'
    exact Option.some.inj ((first member ends).symm.trans (first member' ends'))
  · intro same other rearranged
    rw [getBySuffix, getBySuffix]
    cases here : package.entries.find? fun entry => part.isSuffixOf entry.1 with
    | none =>
        have absent : other.entries.find? (fun entry => part.isSuffixOf entry.1) = none := by
          rw [List.find?_eq_none] at here ⊢
          exact fun entry member => here entry (rearranged.mem_iff.mpr member)
        rw [absent]
    | some entry =>
        have ends := List.find?_some here
        have member := List.mem_of_find?_eq_some here
        cases there : other.entries.find? fun entry => part.isSuffixOf entry.1 with
        | none =>
            rw [List.find?_eq_none] at there
            exact absurd ends (there entry (rearranged.mem_iff.mp member))
        | some entry' =>
            have ends' := List.find?_some there
            have member' := rearranged.mem_iff.mpr (List.mem_of_find?_eq_some there)
            have data := same entry member entry' member' (List.isSuffixOf_iff_suffix.mp ends)
              (List.isSuffixOf_iff_suffix.mp ends')
            rw [Option.map_some, Option.map_some, data]

end OoxmlPackage

/-- The lookups do not depend on the iteration exactly when no two of the names have the same
tokens, numbers that meet fit in `u64`, and the entries with the suffix hold the same. -/
theorem stable_iff (package : OoxmlPackage) (front suffix part : List Char) :
    Stable package front suffix part ↔
      (∀ a ∈ package.collected front suffix, ∀ b ∈ package.collected front suffix,
        tokens a = tokens b → a = b) ∧
      NumbersFit (package.collected front suffix) ∧
      ∀ entry ∈ package.entries, ∀ entry' ∈ package.entries,
        part <:+ entry.1 → part <:+ entry'.1 → entry.2 = entry'.2 := by
  constructor
  · intro stable
    refine ⟨(package.namesMatching_iff front suffix).mp stable.names, ?_,
      (package.getBySuffix_iff part).mp stable.entry⟩
    have fit := (byValue_iff _).mp stable.byValue
    exact fun a inA b inB => fit a (OoxmlPackage.mem_namesMatching.mpr inA) b
      (OoxmlPackage.mem_namesMatching.mpr inB)
  · rintro ⟨apart, fit, same⟩
    refine ⟨naturalCmp_swap, fun _ _ _ => naturalCmp_trans, ?_, ?_,
      (package.namesMatching_iff front suffix).mpr apart, (package.getBySuffix_iff part).mpr same⟩
    · intro a inA b inB tied
      exact apart a (OoxmlPackage.mem_namesMatching.mp inA)
        b (OoxmlPackage.mem_namesMatching.mp inB)
        ((naturalCmp_eq_iff a b).mp tied)
    · rw [byValue_iff]
      exact fun a inA b inB => fit a (OoxmlPackage.mem_namesMatching.mp inA) b
        (OoxmlPackage.mem_namesMatching.mp inB)

/-- Two slides whose numbers differ in a leading zero. -/
def twoSlides : OoxmlPackage where
  entries := [("ppt/slides/slide1.xml".toList, [1]), ("ppt/slides/slide01.xml".toList, [2])]
  distinct := by decide

theorem not_stable_twoSlides :
    ¬ Stable twoSlides "ppt/slides/slide".toList ".xml".toList "slide1.xml".toList := by
  intro stable
  have first : "ppt/slides/slide1.xml".toList ∈
      twoSlides.namesMatching "ppt/slides/slide".toList ".xml".toList :=
    OoxmlPackage.mem_namesMatching.mpr (by decide)
  have second : "ppt/slides/slide01.xml".toList ∈
      twoSlides.namesMatching "ppt/slides/slide".toList ".xml".toList :=
    OoxmlPackage.mem_namesMatching.mpr (by decide)
  have tied := (naturalCmp_eq_iff "ppt/slides/slide1.xml".toList
    "ppt/slides/slide01.xml".toList).mpr (by decide)
  exact absurd (stable.identical _ first _ second tied) (by decide)

end AiCoreStack.Markdown.Ooxml
