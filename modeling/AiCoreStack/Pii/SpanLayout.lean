import AiCoreStack.Foundation.Alignment
import AiCoreStack.Pii.Span

/-!
# Span maps as layouts of tiles

A tile is a maximal piece of an alignment of two texts: a run that passes through
unchanged, or a block that a rule rewrote.  A span map is the layout of a tile
list: every segment records where its tile starts and stops in the two texts.
Positions are kept as the texts before them.  The builder lays out exactly the
tiles of its calls as long as both texts fit the `u32` offsets.
-/

namespace AiCoreStack.Pii

open AiCoreStack.Foundation
open AiCoreStack.Foundation.Alignment (Atom keeps Consuming)
open String (utf8Len utf8Len_nil utf8Len_cons utf8Len_append utf8Len_eq_zero)

/-- Texts whose offsets are representable. -/
def Fits (text : List Char) : Prop := utf8Len text < 2 ^ 32

instance : DecidablePred Fits := fun text => inferInstanceAs (Decidable (utf8Len text < 2 ^ 32))

theorem Fits.of_append_left {left right : List Char} (fits : Fits (left ++ right)) :
    Fits left := by
  unfold Fits at *
  simp only [utf8Len_append] at fits
  omega

theorem Fits.length_lt {text : List Char} (fits : Fits text) : text.length < 2 ^ 32 :=
  Nat.lt_of_le_of_lt (length_le_utf8Len text) fits

/-! ## Weights -/

@[simp] theorem saturatingAdd_toNat (left right : UInt16) :
    (saturatingAdd left right).toNat = min (left.toNat + right.toNat) 65535 := by
  unfold saturatingAdd
  rw [UInt16.toNat_ofNat']
  exact Nat.mod_eq_of_lt (by omega)

theorem saturatingAdd_comm (left right : UInt16) :
    saturatingAdd left right = saturatingAdd right left := by
  unfold saturatingAdd
  rw [Nat.add_comm]

theorem saturatingAdd_assoc (first second third : UInt16) :
    saturatingAdd (saturatingAdd first second) third =
      saturatingAdd first (saturatingAdd second third) := by
  apply UInt16.toNat_inj.mp
  simp only [saturatingAdd_toNat]
  omega

theorem zero_saturatingAdd (count : UInt16) : saturatingAdd 0 count = count := by
  apply UInt16.toNat_inj.mp
  have bound := count.toNat_lt
  simp only [saturatingAdd_toNat, UInt16.toNat_zero]
  omega

instance : Zero NormalizationCost := ⟨{}⟩

instance : Add NormalizationCost := ⟨NormalizationCost.add⟩

theorem NormalizationCost.add_eq (first second : NormalizationCost) :
    first + second = first.add second := rfl

theorem NormalizationCost.zero_eq : (0 : NormalizationCost) = {} := rfl

instance : AddCommMonoid NormalizationCost where
  add_assoc first second third := by
    simp [NormalizationCost.add_eq, NormalizationCost.add, saturatingAdd_assoc]
  add_comm first second := by
    simp only [NormalizationCost.add_eq, NormalizationCost.add, saturatingAdd_comm]
  zero_add cost := by
    simp [NormalizationCost.add_eq, NormalizationCost.zero_eq, NormalizationCost.add,
      zero_saturatingAdd]
  add_zero cost := by
    simp [NormalizationCost.add_eq, NormalizationCost.zero_eq, NormalizationCost.add,
      saturatingAdd_comm _ 0, zero_saturatingAdd]
  nsmul := nsmulRec

@[simp] theorem NormalizationCost.add_default (cost : NormalizationCost) :
    cost.add {} = cost := add_zero cost

@[simp] theorem NormalizationCost.default_add (cost : NormalizationCost) :
    ({} : NormalizationCost).add cost = cost := zero_add cost

/-- What a rewritten block carries: the rules that touched it and its cost. -/
@[ext] structure Weight where
  rules : Finset RuleId
  cost : NormalizationCost

instance : Zero Weight := ⟨⟨∅, 0⟩⟩

instance : Add Weight :=
  ⟨fun first second => ⟨first.rules ∪ second.rules, first.cost + second.cost⟩⟩

instance : AddCommMonoid Weight where
  add_assoc first second third :=
    Weight.ext (Finset.union_assoc _ _ _) (add_assoc _ _ _)
  add_comm first second := Weight.ext (Finset.union_comm _ _) (add_comm _ _)
  zero_add weight := Weight.ext (Finset.empty_union _) (zero_add _)
  add_zero weight := Weight.ext (Finset.union_empty _) (add_zero _)
  nsmul := nsmulRec

@[simp] theorem Weight.add_rules (first second : Weight) :
    (first + second).rules = first.rules ∪ second.rules := rfl

@[simp] theorem Weight.add_cost (first second : Weight) :
    (first + second).cost = first.cost.add second.cost := rfl

@[simp] theorem Weight.zero_rules : (0 : Weight).rules = ∅ := rfl

@[simp] theorem Weight.zero_cost : (0 : Weight).cost = {} := rfl

theorem mem_destutter'_ne {rule first : RuleId} {rules : List RuleId} :
    rule ∈ rules.destutter' (· ≠ ·) first ↔ rule = first ∨ rule ∈ rules := by
  induction rules generalizing first with
  | nil => simp
  | cons next rules ih =>
      by_cases same : first = next
      · subst same
        rw [List.destutter'_cons_neg _ (by simp), ih]
        simp
      · rw [List.destutter'_cons_pos _ same, List.mem_cons, ih, List.mem_cons]

theorem mem_canonicalizeRules {rule : RuleId} {rules : List RuleId} :
    rule ∈ canonicalizeRules rules ↔ rule ∈ rules := by
  unfold canonicalizeRules
  rw [← List.mem_insertionSort (· ≤ ·) (l := rules)]
  cases rules.insertionSort (· ≤ ·) with
  | nil => simp
  | cons first rest => rw [List.destutter_cons', mem_destutter'_ne, List.mem_cons]

/-- Sorting and removing repetitions computes the sorted list of the rule set. -/
theorem canonicalizeRules_eq (rules : List RuleId) :
    canonicalizeRules rules = rules.toFinset.sort (· ≤ ·) := by
  have ordered : (canonicalizeRules rules).Pairwise (· ≤ ·) :=
    (List.pairwise_insertionSort (· ≤ ·) rules).sublist (List.destutter_sublist _ _)
  have strict : (canonicalizeRules rules).Pairwise (· < ·) := by
    have apart : (canonicalizeRules rules).IsChain (· ≠ ·) := List.isChain_destutter _ _
    apply List.isChain_iff_pairwise.mp
    rw [List.isChain_iff_getElem] at apart ⊢
    intro i inside
    exact lt_of_le_of_ne (List.isChain_iff_getElem.mp ordered.isChain i inside)
      (apart i inside)
  apply List.Perm.eq_of_pairwise' ordered (Finset.pairwise_sort _ _)
  rw [List.perm_ext_iff_of_nodup (strict.imp fun less => ne_of_lt less)
    (Finset.sort_nodup _ _)]
  intro rule
  simp [mem_canonicalizeRules]

/-! ## Tiles -/

/-- A piece of an alignment between two texts. -/
inductive Tile where
  | run (text : List Char)
  | block (source target : List Char) (weight : Weight)

namespace Tile

/-- Text on the source side. -/
def src : Tile → List Char
  | run text => text
  | block source _ _ => source

/-- Text on the destination side. -/
def dst : Tile → List Char
  | run text => text
  | block _ target _ => target

/-- Whether the tile passes its text through. -/
def isRun : Tile → Bool
  | run _ => true
  | block _ _ _ => false

/-- Letters of a tile: a run is cut at every letter, a block nowhere. -/
def atoms : Tile → List (Atom Char Weight)
  | run text => keeps text
  | block source target weight => [.block source target weight]

/-- Kind of a rewritten block. -/
def kindOf (source target : List Char) : SegmentKind :=
  if target = [] then .delete
  else if source.length < target.length then .expand
  else .replace

@[simp] theorem src_atoms (tile : Tile) : Alignment.src tile.atoms = tile.src := by
  cases tile <;> simp [atoms, src, Atom.src]

@[simp] theorem dst_atoms (tile : Tile) : Alignment.dst tile.atoms = tile.dst := by
  cases tile <;> simp [atoms, dst, Atom.dst]

end Tile

/-- Source text of a tile list. -/
def srcText (tiles : List Tile) : List Char := tiles.flatMap Tile.src

/-- Destination text of a tile list. -/
def dstText (tiles : List Tile) : List Char := tiles.flatMap Tile.dst

/-- The alignment a tile list describes. -/
def expand (tiles : List Tile) : List (Atom Char Weight) := tiles.flatMap Tile.atoms

/-- Every tile consumes source text. -/
def Solid (tiles : List Tile) : Prop := ∀ tile ∈ tiles, tile.src ≠ []

@[simp] theorem srcText_nil : srcText [] = [] := rfl
@[simp] theorem dstText_nil : dstText [] = [] := rfl
@[simp] theorem expand_nil : expand [] = [] := rfl

@[simp] theorem srcText_cons (tile : Tile) (tiles : List Tile) :
    srcText (tile :: tiles) = tile.src ++ srcText tiles := rfl

@[simp] theorem dstText_cons (tile : Tile) (tiles : List Tile) :
    dstText (tile :: tiles) = tile.dst ++ dstText tiles := rfl

@[simp] theorem expand_cons (tile : Tile) (tiles : List Tile) :
    expand (tile :: tiles) = tile.atoms ++ expand tiles := rfl

@[simp] theorem srcText_append (left right : List Tile) :
    srcText (left ++ right) = srcText left ++ srcText right := by
  simp [srcText]

@[simp] theorem dstText_append (left right : List Tile) :
    dstText (left ++ right) = dstText left ++ dstText right := by
  simp [dstText]

@[simp] theorem expand_append (left right : List Tile) :
    expand (left ++ right) = expand left ++ expand right := by
  simp [expand]

@[simp] theorem src_expand (tiles : List Tile) :
    Alignment.src (expand tiles) = srcText tiles := by
  induction tiles with
  | nil => rfl
  | cons tile tiles ih => simp [ih]

@[simp] theorem dst_expand (tiles : List Tile) :
    Alignment.dst (expand tiles) = dstText tiles := by
  induction tiles with
  | nil => rfl
  | cons tile tiles ih => simp [ih]

@[simp] theorem solid_nil : Solid [] := fun _ member => absurd member (by simp)

theorem solid_cons {tile : Tile} {tiles : List Tile} :
    Solid (tile :: tiles) ↔ tile.src ≠ [] ∧ Solid tiles := by
  simp [Solid]

theorem solid_append {left right : List Tile} :
    Solid (left ++ right) ↔ Solid left ∧ Solid right := by
  simp [Solid, or_imp, forall_and]

theorem Solid.consuming {tiles : List Tile} (solid : Solid tiles) :
    Consuming (expand tiles) := by
  intro atom member
  simp only [expand, List.mem_flatMap] at member
  obtain ⟨tile, inside, member⟩ := member
  cases tile with
  | run text => exact Alignment.consuming_keeps text atom member
  | block source target weight =>
      simp only [Tile.atoms, List.mem_singleton] at member
      subst member
      exact solid _ inside

/-! ## Layout -/

/-- Offsets of the end of a text. -/
def mark (before : List Char) : UInt32 × UInt32 :=
  (UInt32.ofNat (utf8Len before), UInt32.ofNat before.length)

/-- Span of a text placed after another one. -/
def spanAt (before text : List Char) : Span :=
  ⟨⟨(mark before).1, (mark (before ++ text)).1⟩, ⟨(mark before).2, (mark (before ++ text)).2⟩⟩

@[simp] theorem spanAt_byte (before text : List Char) :
    (spanAt before text).byte = ⟨(mark before).1, (mark (before ++ text)).1⟩ := rfl

@[simp] theorem spanAt_char (before text : List Char) :
    (spanAt before text).char = ⟨(mark before).2, (mark (before ++ text)).2⟩ := rfl

/-- Segment of one tile placed after the two given texts. -/
def Tile.segment (before after : List Char) : Tile → Segment
  | run text => ⟨spanAt before text, spanAt after text, .identity, [], {}⟩
  | block source target weight =>
      ⟨spanAt before source, spanAt after target, kindOf source target,
        weight.rules.sort (· ≤ ·), weight.cost⟩

/-- Segment table of a tile list placed after the two given texts. -/
def layout (before after : List Char) : List Tile → List Segment
  | [] => []
  | tile :: tiles =>
      tile.segment before after :: layout (before ++ tile.src) (after ++ tile.dst) tiles

/-- The span map of a tile list. -/
def tableOf (tiles : List Tile) : SpanMap := ⟨layout [] [] tiles⟩

@[simp] theorem layout_nil (before after : List Char) : layout before after [] = [] := rfl

@[simp] theorem layout_cons (before after : List Char) (tile : Tile) (tiles : List Tile) :
    layout before after (tile :: tiles) =
      tile.segment before after :: layout (before ++ tile.src) (after ++ tile.dst) tiles :=
  rfl

@[simp] theorem layout_length (before after : List Char) (tiles : List Tile) :
    (layout before after tiles).length = tiles.length := by
  induction tiles generalizing before after with
  | nil => rfl
  | cons tile tiles ih => simp [ih]

theorem layout_append (before after : List Char) (left right : List Tile) :
    layout before after (left ++ right) =
      layout before after left ++
        layout (before ++ srcText left) (after ++ dstText left) right := by
  induction left generalizing before after with
  | nil => simp
  | cons tile left ih => simp [ih]

/-- Where a segment of a table comes from. -/
theorem mem_layout {before after : List Char} {tiles : List Tile} {segment : Segment}
    (member : segment ∈ layout before after tiles) :
    ∃ left tile right, tiles = left ++ tile :: right ∧
      segment = tile.segment (before ++ srcText left) (after ++ dstText left) := by
  induction tiles generalizing before after with
  | nil => simp at member
  | cons tile tiles ih =>
      rw [layout_cons, List.mem_cons] at member
      rcases member with rfl | member
      · exact ⟨[], tile, tiles, rfl, by simp⟩
      · obtain ⟨left, other, right, rfl, segmentEq⟩ := ih member
        exact ⟨tile :: left, other, right, rfl, by simpa using segmentEq⟩

theorem Tile.segment_src (before after : List Char) (tile : Tile) :
    (tile.segment before after).src = spanAt before tile.src := by
  cases tile <;> rfl

theorem Tile.segment_dst (before after : List Char) (tile : Tile) :
    (tile.segment before after).dst = spanAt after tile.dst := by
  cases tile <;> rfl

theorem Tile.segment_identity (before after : List Char) (tile : Tile) :
    (tile.segment before after).kind = .identity ↔ tile.isRun = true := by
  cases tile with
  | run text => simp [segment, isRun]
  | block source target weight =>
      simp only [segment, isRun, kindOf]
      split
      · simp
      · split <;> simp

theorem Tile.run_of_isRun {tile : Tile} (isRun : tile.isRun = true) :
    ∃ text, tile = .run text := by
  cases tile with
  | run text => exact ⟨text, rfl⟩
  | block source target weight => exact absurd isRun (by simp [Tile.isRun])

theorem Tile.block_of_not_isRun {tile : Tile} (isBlock : tile.isRun = false) :
    ∃ source target weight, tile = .block source target weight := by
  cases tile with
  | run text => exact absurd isBlock (by simp [Tile.isRun])
  | block source target weight => exact ⟨source, target, weight, rfl⟩

/-! ## Offsets of representable texts -/

theorem mark_lt_iff {left right : List Char} (fitsLeft : Fits left) (fitsRight : Fits right) :
    (mark left).1 < (mark right).1 ↔ utf8Len left < utf8Len right := by
  unfold mark Fits at *
  rw [UInt32.lt_iff_toNat_lt, UInt32.toNat_ofNat_of_lt' fitsLeft,
    UInt32.toNat_ofNat_of_lt' fitsRight]

theorem mark_le_iff {left right : List Char} (fitsLeft : Fits left) (fitsRight : Fits right) :
    (mark left).1 ≤ (mark right).1 ↔ utf8Len left ≤ utf8Len right := by
  unfold mark Fits at *
  rw [UInt32.le_iff_toNat_le, UInt32.toNat_ofNat_of_lt' fitsLeft,
    UInt32.toNat_ofNat_of_lt' fitsRight]

theorem mark_eq_iff {left right : List Char} (fitsLeft : Fits left) (fitsRight : Fits right) :
    (mark left).1 = (mark right).1 ↔ utf8Len left = utf8Len right := by
  unfold mark Fits at *
  rw [← UInt32.toNat_inj, UInt32.toNat_ofNat_of_lt' fitsLeft,
    UInt32.toNat_ofNat_of_lt' fitsRight]

theorem mark_append (before text : List Char) :
    mark (before ++ text) = ((mark before).1 + (mark text).1, (mark before).2 + (mark text).2) := by
  simp [mark, utf8Len_append, UInt32.ofNat_add]

theorem mark_append_sub (before text : List Char) :
    (mark (before ++ text)).1 - (mark before).1 = (mark text).1 ∧
      (mark (before ++ text)).2 - (mark before).2 = (mark text).2 := by
  simp [mark_append]

theorem spanAt_isEmpty {before text : List Char} (fits : Fits (before ++ text)) :
    (spanAt before text).isEmpty = true ↔ text = [] := by
  unfold Span.isEmpty
  rw [decide_eq_true_eq]
  change (mark (before ++ text)).1 ≤ (mark before).1 ↔ _
  rw [mark_le_iff fits fits.of_append_left, utf8Len_append]
  constructor
  · intro le
    exact utf8Len_eq_zero.mp (by omega)
  · rintro rfl
    simp

theorem saturatingSub_ofNat {start width : Nat} (fits : start + width < 2 ^ 32) :
    saturatingSub (UInt32.ofNat (start + width)) (UInt32.ofNat start) = UInt32.ofNat width := by
  unfold saturatingSub
  rw [if_pos]
  · simp [UInt32.ofNat_add]
  · have bound : start < 2 ^ 32 := by omega
    rw [UInt32.le_iff_toNat_le, UInt32.toNat_ofNat_of_lt' fits,
      UInt32.toNat_ofNat_of_lt' bound]
    omega

theorem spanAt_charLen {before text : List Char} (fits : Fits (before ++ text)) :
    (spanAt before text).charLen = UInt32.ofNat text.length := by
  have bound := fits.length_lt
  simp only [Span.charLen, spanAt, mark, List.length_append] at *
  exact saturatingSub_ofNat bound

theorem spanAt_byteLen {before text : List Char} (fits : Fits (before ++ text)) :
    (spanAt before text).byteLen = UInt32.ofNat (utf8Len text) := by
  unfold Fits at fits
  simp only [Span.byteLen, spanAt, mark, utf8Len_append] at *
  exact saturatingSub_ofNat fits

theorem ofNat_length_lt {left right : List Char} (fitsLeft : left.length < 2 ^ 32)
    (fitsRight : right.length < 2 ^ 32) :
    UInt32.ofNat left.length < UInt32.ofNat right.length ↔ left.length < right.length := by
  rw [UInt32.lt_iff_toNat_lt, UInt32.toNat_ofNat_of_lt' fitsLeft,
    UInt32.toNat_ofNat_of_lt' fitsRight]

/-- The kind computed from offsets is the kind of the two texts. -/
theorem classify_spanAt {before after source target : List Char}
    (fitsSrc : Fits (before ++ source)) (fitsDst : Fits (after ++ target)) :
    classify (spanAt before source) (spanAt after target) = Tile.kindOf source target := by
  have srcBound : source.length < 2 ^ 32 := by
    have bound := fitsSrc.length_lt
    simp only [List.length_append] at bound
    omega
  have dstBound : target.length < 2 ^ 32 := by
    have bound := fitsDst.length_lt
    simp only [List.length_append] at bound
    omega
  simp only [classify, Tile.kindOf, spanAt_isEmpty fitsDst, spanAt_charLen fitsSrc,
    spanAt_charLen fitsDst, gt_iff_lt, ofNat_length_lt srcBound dstBound]

/-! ## Packing

The builder and the composition fold adjacent runs into one.  Folding depends on
the alignment only, so the packed tile list is a normal form. -/

/-- Put an atom in front of a packed tile list. -/
def consAtom : Atom Char Weight → List Tile → List Tile
  | .keep letter, .run text :: tiles => .run (letter :: text) :: tiles
  | .keep letter, tiles => .run [letter] :: tiles
  | .block source target weight, tiles => .block source target weight :: tiles

/-- Tiles of an alignment with maximal runs. -/
def pack (atoms : List (Atom Char Weight)) : List Tile := atoms.foldr consAtom []

/-- Append a tile, extending a trailing run in place. -/
def snocTile (tiles : List Tile) (tile : Tile) : List Tile :=
  match tile, tiles.getLast? with
  | .run text, some (.run before) => tiles.dropLast ++ [.run (before ++ text)]
  | tile, _ => tiles ++ [tile]

theorem expand_consAtom (atom : Atom Char Weight) (tiles : List Tile) :
    expand (consAtom atom tiles) = atom :: expand tiles := by
  cases atom with
  | block source target weight => simp [consAtom, Tile.atoms]
  | keep letter =>
      rcases tiles with _ | ⟨_ | _, tiles⟩ <;>
        simp [consAtom, Tile.atoms, keeps]

@[simp] theorem expand_pack (atoms : List (Atom Char Weight)) :
    expand (pack atoms) = atoms := by
  induction atoms with
  | nil => rfl
  | cons atom atoms ih =>
      change expand (consAtom atom (pack atoms)) = _
      rw [expand_consAtom, ih]

@[simp] theorem srcText_pack (atoms : List (Atom Char Weight)) :
    srcText (pack atoms) = Alignment.src atoms := by
  rw [← src_expand, expand_pack]

@[simp] theorem dstText_pack (atoms : List (Atom Char Weight)) :
    dstText (pack atoms) = Alignment.dst atoms := by
  rw [← dst_expand, expand_pack]

theorem solid_consAtom {atom : Atom Char Weight} {tiles : List Tile}
    (nonempty : atom.src ≠ []) (solid : Solid tiles) : Solid (consAtom atom tiles) := by
  cases atom with
  | block source target weight => exact solid_cons.mpr ⟨nonempty, solid⟩
  | keep letter =>
      rcases tiles with _ | ⟨_ | _, tiles⟩
      · exact solid_cons.mpr ⟨by simp [Tile.src], solid⟩
      · exact solid_cons.mpr ⟨by simp [Tile.src], (solid_cons.mp solid).2⟩
      · exact solid_cons.mpr ⟨by simp [Tile.src], solid⟩

theorem solid_pack {atoms : List (Atom Char Weight)} (consuming : Consuming atoms) :
    Solid (pack atoms) := by
  induction atoms with
  | nil => exact solid_nil
  | cons atom atoms ih =>
      exact solid_consAtom (consuming atom (by simp))
        (ih fun other member => consuming other (by simp [member]))

theorem pack_keeps {text : List Char} (nonempty : text ≠ []) :
    pack (keeps text) = [.run text] := by
  induction text with
  | nil => exact absurd rfl nonempty
  | cons letter text ih =>
      change consAtom (.keep letter) (pack (keeps text)) = _
      cases text with
      | nil => rfl
      | cons next text => rw [ih (by simp)]; rfl

theorem pack_atoms {tile : Tile} (nonempty : tile.src ≠ []) : pack tile.atoms = [tile] := by
  cases tile with
  | run text => exact pack_keeps nonempty
  | block source target weight => rfl

theorem snocTile_cons (first next : Tile) (tiles : List Tile) (tile : Tile) :
    snocTile (first :: next :: tiles) tile = first :: snocTile (next :: tiles) tile := by
  simp only [snocTile, List.getLast?_cons_cons, List.dropLast_cons_cons]
  split <;> rfl

theorem snocTile_consAtom (atom : Atom Char Weight) (tiles : List Tile) (tile : Tile) :
    snocTile (consAtom atom tiles) tile = consAtom atom (snocTile tiles tile) := by
  rcases tiles with _ | ⟨first, _ | ⟨next, tiles⟩⟩
  · cases atom <;> cases tile <;> rfl
  · cases atom <;> cases tile <;> cases first <;> rfl
  · cases atom with
    | block source target weight => simp only [consAtom, snocTile_cons]
    | keep letter => cases first <;> simp only [consAtom, snocTile_cons]

/-- Appending a tile to a packed list packs the extended alignment. -/
theorem snocTile_pack {tile : Tile} (nonempty : tile.src ≠ [])
    (atoms : List (Atom Char Weight)) :
    snocTile (pack atoms) tile = pack (atoms ++ tile.atoms) := by
  induction atoms with
  | nil =>
      rw [List.nil_append, pack_atoms nonempty]
      cases tile <;> rfl
  | cons atom atoms ih =>
      change snocTile (consAtom atom (pack atoms)) tile = _
      rw [snocTile_consAtom, ih]
      rfl

theorem pack_append_block (front back : List (Atom Char Weight)) (source target : List Char)
    (weight : Weight) :
    pack (front ++ .block source target weight :: back) =
      pack front ++ .block source target weight :: pack back := by
  induction front with
  | nil => rfl
  | cons atom front ih =>
      change consAtom atom (pack (front ++ _)) = consAtom atom (pack front) ++ _
      rw [ih]
      cases atom with
      | block => rfl
      | keep letter => rcases pack front with _ | ⟨_ | _, tiles⟩ <;> rfl

/-- The folding step that `mergeAdjacentIdentity` takes for one segment. -/
def mergeStep (out : List Segment) (segment : Segment) : List Segment :=
  if segment.kind = .identity then
    match out.getLast? with
    | some last =>
        if last.kind = .identity then
          out.dropLast ++ [last.extendTo segment.src segment.dst]
        else out ++ [segment]
    | none => out ++ [segment]
  else out ++ [segment]

theorem mergeAdjacentIdentity_eq (segments : List Segment) :
    mergeAdjacentIdentity segments = segments.foldl mergeStep [] := rfl

theorem pushIdentity_eq (segments : List Segment) (src dst : Span) :
    pushIdentity segments src dst = mergeStep segments ⟨src, dst, .identity, [], {}⟩ := by
  cases last : segments.getLast? with
  | none => simp [pushIdentity, mergeStep, last]
  | some segment => simp [pushIdentity, mergeStep, last]

theorem layout_snocTile (tiles : List Tile) (tile : Tile) :
    layout [] [] (snocTile tiles tile) =
      mergeStep (layout [] [] tiles) (tile.segment (srcText tiles) (dstText tiles)) := by
  rcases List.eq_nil_or_concat tiles with rfl | ⟨init, last, rfl⟩
  · cases tile with
    | run text => rfl
    | block source target weight =>
        have other : (Tile.block source target weight |>.segment [] []).kind ≠ .identity := by
          simp [Tile.segment_identity, Tile.isRun]
        simp [snocTile, mergeStep, other]
  · have lastSegment : (layout [] [] (init ++ [last])).getLast? =
        some (last.segment (srcText init) (dstText init)) := by
      simp [layout_append]
    have initSegments : (layout [] [] (init ++ [last])).dropLast = layout [] [] init := by
      simp [layout_append]
    simp only [mergeStep, Tile.segment_identity, lastSegment, initSegments, List.concat_eq_append]
    cases tile with
    | block source target weight =>
        simp [snocTile, Tile.isRun, layout_append]
    | run text =>
        cases last with
        | block source target weight =>
            simp [snocTile, Tile.isRun, layout_append]
        | run before =>
            simp [snocTile, Tile.isRun, layout_append, Tile.segment, Segment.extendTo,
              spanAt, Tile.src, Tile.dst]

/-- Folding the table of any tile list gives the packed table. -/
theorem mergeAdjacentIdentity_layout {tiles : List Tile} (solid : Solid tiles) :
    mergeAdjacentIdentity (layout [] [] tiles) = layout [] [] (pack (expand tiles)) := by
  rw [mergeAdjacentIdentity_eq]
  induction tiles using List.reverseRecOn with
  | nil => rfl
  | append_singleton tiles tile ih =>
      obtain ⟨front, back⟩ := solid_append.mp solid
      have nonempty : tile.src ≠ [] := back tile (by simp)
      rw [layout_append, List.foldl_append, ih front, expand_append, expand_cons, expand_nil,
        List.append_nil, ← snocTile_pack nonempty, layout_snocTile]
      simp

/-! ## Builder runs -/

/-- One call of a builder operation. -/
inductive Call where
  | keep (text : List Char)
  | replace (srcText dstText : List Char) (rule : RuleId)
  | numeral (srcText dstText : List Char) (rule : RuleId)
  | absorb (srcText : List Char) (rule : RuleId) (kind : Absorbed)

namespace Call

/-- Source fragment the call consumes. -/
def source : Call → List Char
  | keep text => text
  | replace srcText _ _ => srcText
  | numeral srcText _ _ => srcText
  | absorb srcText _ _ => srcText

/-- Effect of the call on the builder. -/
def run (builder : SpanMapBuilder) : Call → SpanMapBuilder
  | keep text => builder.keep text
  | replace srcText dstText rule => builder.replace srcText dstText rule
  | numeral srcText dstText rule => builder.numeral srcText dstText rule
  | absorb srcText rule kind => builder.absorb srcText rule kind

/-- Saturated count of a fragment's characters. -/
def count (text : List Char) : UInt16 := UInt16.ofNat (min text.length 65535)

/-- Cost the builder books for absorbing a fragment. -/
def absorbedCost (text : List Char) : Absorbed → NormalizationCost
  | .whitespace => { absorbedWhitespace := count text }
  | .separator => { absorbedSeparators := count text }
  | .other => {}

/-- The tile the call lays out. -/
def tile : Call → Tile
  | keep text => .run text
  | replace srcText dstText rule =>
      .block srcText dstText ⟨{rule}, { replacedChars := count srcText }⟩
  | numeral srcText dstText rule =>
      .block srcText dstText ⟨{rule}, { expandedSyllables := count srcText }⟩
  | absorb srcText rule kind => .block srcText [] ⟨{rule}, absorbedCost srcText kind⟩

@[simp] theorem tile_src (call : Call) : call.tile.src = call.source := by
  cases call <;> rfl

/-- Alignment of the call; a call with an empty source does nothing. -/
def atoms (call : Call) : List (Atom Char Weight) :=
  if call.source = [] then [] else call.tile.atoms

@[simp] theorem src_atoms (call : Call) : Alignment.src call.atoms = call.source := by
  unfold atoms
  split
  next empty => simp [empty]
  next => simp

theorem consuming_atoms (call : Call) : Consuming call.atoms := by
  unfold atoms
  split
  next => intro atom member; simp at member
  next nonempty =>
      have solid : Solid [call.tile] := solid_cons.mpr ⟨by simpa using nonempty, solid_nil⟩
      simpa using solid.consuming

end Call

/-- Alignment of a sequence of calls. -/
def callAtoms (calls : List Call) : List (Atom Char Weight) := calls.flatMap Call.atoms

/-- A complete builder run: the normalised text and its map. -/
def build (calls : List Call) : List Char × SpanMap :=
  (calls.foldl Call.run {}).finish

/-- The builder has laid out an alignment. -/
structure Builds (builder : SpanMapBuilder) (atoms : List (Atom Char Weight)) : Prop where
  segments : builder.segments = layout [] [] (pack atoms)
  out : builder.out = Alignment.dst atoms
  src : (builder.srcByte, builder.srcChar) = mark (Alignment.src atoms)
  dst : (builder.dstByte, builder.dstChar) = mark (Alignment.dst atoms)

theorem builds_empty : Builds {} [] := ⟨rfl, rfl, rfl, rfl⟩

namespace Builds

variable {builder : SpanMapBuilder} {atoms : List (Atom Char Weight)}

theorem srcSpan (builds : Builds builder atoms) (text : List Char) :
    (builder.advanceSrc text).2 = spanAt (Alignment.src atoms) text := by
  obtain ⟨byte, char⟩ := Prod.mk.injEq _ _ _ _ ▸ builds.src
  simp [SpanMapBuilder.advanceSrc, spanAt, mark_append, byte, char]
  simp [mark]

theorem dstSpan (builds : Builds builder atoms) (text : List Char) :
    (builder.advanceDst text).2 = spanAt (Alignment.dst atoms) text := by
  obtain ⟨byte, char⟩ := Prod.mk.injEq _ _ _ _ ▸ builds.dst
  simp [SpanMapBuilder.advanceDst, spanAt, mark_append, byte, char]
  simp [mark]

theorem emptySpan (builds : Builds builder atoms) :
    Span.emptyAt builder.dstByte builder.dstChar = spanAt (Alignment.dst atoms) [] := by
  obtain ⟨byte, char⟩ := Prod.mk.injEq _ _ _ _ ▸ builds.dst
  simp [Span.emptyAt, spanAt, mark, byte, char]

/-- Advancing both cursors over a tile and pushing its segment lays out the tile. -/
theorem push (builds : Builds builder atoms) (tile : Tile) (nonempty : tile.src ≠ [])
    {next : SpanMapBuilder}
    (segments : next.segments = mergeStep builder.segments
      (tile.segment (Alignment.src atoms) (Alignment.dst atoms)))
    (out : next.out = builder.out ++ tile.dst)
    (srcByte : next.srcByte = builder.srcByte + UInt32.ofNat (utf8Len tile.src))
    (srcChar : next.srcChar = builder.srcChar + UInt32.ofNat tile.src.length)
    (dstByte : next.dstByte = builder.dstByte + UInt32.ofNat (utf8Len tile.dst))
    (dstChar : next.dstChar = builder.dstChar + UInt32.ofNat tile.dst.length) :
    Builds next (atoms ++ tile.atoms) := by
  obtain ⟨srcByteEq, srcCharEq⟩ := Prod.mk.injEq _ _ _ _ ▸ builds.src
  obtain ⟨dstByteEq, dstCharEq⟩ := Prod.mk.injEq _ _ _ _ ▸ builds.dst
  constructor
  · rw [segments, builds.segments, ← snocTile_pack nonempty, layout_snocTile]
    simp
  · simp [out, builds.out]
  · simp [srcByte, srcChar, srcByteEq, srcCharEq, mark_append]
    simp [mark]
  · simp [dstByte, dstChar, dstByteEq, dstCharEq, mark_append]
    simp [mark]

theorem clampU16_charLen {before text : List Char} (fits : Fits (before ++ text)) :
    clampU16 (spanAt before text).charLen = Call.count text := by
  have bound : text.length < 2 ^ 32 := by
    have whole := fits.length_lt
    simp only [List.length_append] at whole
    omega
  unfold clampU16 Call.count
  rw [spanAt_charLen fits, UInt32.toNat_ofNat_of_lt' bound]

theorem count (builds : Builds builder atoms) {text : List Char}
    (fits : Fits (Alignment.src atoms ++ text)) :
    clampU16 (builder.advanceSrc text).2.charLen = Call.count text := by
  rw [builds.srcSpan, clampU16_charLen fits]

theorem mergeStep_block {segments : List Segment} {before after source target : List Char}
    {weight : Weight} :
    mergeStep segments ((Tile.block source target weight).segment before after) =
      segments ++ [(Tile.block source target weight).segment before after] := by
  have other : ((Tile.block source target weight).segment before after).kind ≠ .identity := by
    simp [Tile.segment_identity, Tile.isRun]
  rw [mergeStep, if_neg other]

theorem keep (builds : Builds builder atoms) {text : List Char} (nonempty : text ≠ []) :
    Builds (builder.keep text) (atoms ++ (Tile.run text).atoms) := by
  rw [SpanMapBuilder.keep, if_neg nonempty]
  refine builds.push (.run text) nonempty ?_ rfl rfl rfl rfl rfl
  change pushIdentity builder.segments (builder.advanceSrc text).2
    (builder.advanceDst text).2 = _
  rw [pushIdentity_eq, builds.srcSpan, builds.dstSpan]
  rfl

theorem pushTransform_segment {before after source target : List Char} (rule : RuleId)
    (cost : NormalizationCost) (fitsSrc : Fits (before ++ source))
    (fitsDst : Fits (after ++ target)) (segments : List Segment) :
    segments ++ [⟨spanAt before source, spanAt after target,
        classify (spanAt before source) (spanAt after target), [rule], cost⟩] =
      mergeStep segments ((Tile.block source target ⟨{rule}, cost⟩).segment before after) := by
  rw [mergeStep_block, classify_spanAt fitsSrc fitsDst]
  simp [Tile.segment]

theorem transform (builds : Builds builder atoms) {source target : List Char}
    (nonempty : source ≠ []) (rule : RuleId) (cost : NormalizationCost)
    (fitsSrc : Fits (Alignment.src atoms ++ source))
    (fitsDst : Fits (Alignment.dst atoms ++ target)) :
    Builds (((builder.advanceSrc source).1.advanceDst target).1.pushTransform
      (builder.advanceSrc source).2 (builder.advanceDst target).2 rule cost)
      (atoms ++ (Tile.block source target ⟨{rule}, cost⟩).atoms) := by
  refine builds.push (.block source target ⟨{rule}, cost⟩) nonempty
    ?_ rfl rfl rfl rfl rfl
  rw [builds.srcSpan, builds.dstSpan]
  exact pushTransform_segment rule cost fitsSrc fitsDst _

theorem absorb (builds : Builds builder atoms) {source : List Char}
    (nonempty : source ≠ []) (rule : RuleId) (cost : NormalizationCost)
    (fitsSrc : Fits (Alignment.src atoms ++ source)) (fitsDst : Fits (Alignment.dst atoms)) :
    Builds ((builder.advanceSrc source).1.pushTransform (builder.advanceSrc source).2
      (Span.emptyAt builder.dstByte builder.dstChar) rule cost)
      (atoms ++ (Tile.block source [] ⟨{rule}, cost⟩).atoms) := by
  refine builds.push (.block source [] ⟨{rule}, cost⟩) nonempty
    ?_ (List.append_nil _).symm rfl rfl (by simp [Tile.dst]; rfl) (by simp [Tile.dst]; rfl)
  rw [builds.srcSpan, builds.emptySpan]
  exact pushTransform_segment rule cost fitsSrc (by simpa using fitsDst) _

/-- One call lays out its tile, as long as the offsets stay representable. -/
theorem step (builds : Builds builder atoms) (call : Call)
    (fitsSrc : Fits (Alignment.src (atoms ++ call.atoms)))
    (fitsDst : Fits (Alignment.dst (atoms ++ call.atoms))) :
    Builds (Call.run builder call) (atoms ++ call.atoms) := by
  by_cases empty : call.source = []
  · have unchanged : Call.run builder call = builder := by
      cases call <;> simp only [Call.source] at empty <;> subst empty <;>
        simp [Call.run, SpanMapBuilder.keep, SpanMapBuilder.replace, SpanMapBuilder.numeral,
          SpanMapBuilder.absorb]
    rw [unchanged, Call.atoms, if_pos empty, List.append_nil]
    exact builds
  · simp only [Call.atoms, if_neg empty, Alignment.src_append, Alignment.dst_append,
      Tile.src_atoms, Tile.dst_atoms] at fitsSrc fitsDst ⊢
    cases call with
    | keep text => exact builds.keep empty
    | replace source target rule =>
        simp only [Call.source, Call.tile, Tile.src, Tile.dst] at empty fitsSrc fitsDst ⊢
        rw [Call.run, SpanMapBuilder.replace, if_neg empty, ← builds.count fitsSrc]
        exact builds.transform empty rule _ fitsSrc fitsDst
    | numeral source target rule =>
        simp only [Call.source, Call.tile, Tile.src, Tile.dst] at empty fitsSrc fitsDst ⊢
        rw [Call.run, SpanMapBuilder.numeral, if_neg empty, ← builds.count fitsSrc]
        exact builds.transform empty rule _ fitsSrc fitsDst
    | absorb source rule kind =>
        simp only [Call.source, Call.tile, Tile.src, Tile.dst, List.append_nil]
          at empty fitsSrc fitsDst ⊢
        have built := builds.absorb empty rule (Call.absorbedCost source kind) fitsSrc fitsDst
        rw [Call.run, SpanMapBuilder.absorb, if_neg empty]
        cases kind <;> simp only [Call.absorbedCost, ← builds.count fitsSrc] at built ⊢ <;>
          exact built

end Builds

theorem callAtoms_append (left right : List Call) :
    callAtoms (left ++ right) = callAtoms left ++ callAtoms right := by
  simp [callAtoms]

@[simp] theorem src_callAtoms (calls : List Call) :
    Alignment.src (callAtoms calls) = calls.flatMap Call.source := by
  induction calls with
  | nil => rfl
  | cons call calls ih =>
      change Alignment.src (call.atoms ++ callAtoms calls) = _
      simp [ih]

theorem consuming_callAtoms (calls : List Call) : Consuming (callAtoms calls) := by
  intro atom member
  obtain ⟨call, -, inside⟩ := List.mem_flatMap.mp member
  exact call.consuming_atoms atom inside

theorem builds_calls {calls : List Call} (fitsSrc : Fits (Alignment.src (callAtoms calls)))
    (fitsDst : Fits (Alignment.dst (callAtoms calls))) :
    Builds (calls.foldl Call.run {}) (callAtoms calls) := by
  induction calls using List.reverseRecOn with
  | nil => exact builds_empty
  | append_singleton calls call ih =>
      have split : callAtoms (calls ++ [call]) = callAtoms calls ++ call.atoms := by
        simp [callAtoms]
      rw [split] at fitsSrc fitsDst ⊢
      rw [List.foldl_append]
      have before := ih (by rw [Alignment.src_append] at fitsSrc; exact fitsSrc.of_append_left)
        (by rw [Alignment.dst_append] at fitsDst; exact fitsDst.of_append_left)
      exact before.step call fitsSrc fitsDst

theorem out_step (builder : SpanMapBuilder) (call : Call) :
    (Call.run builder call).out = builder.out ++ Alignment.dst call.atoms := by
  by_cases empty : call.source = []
  · cases call <;> simp only [Call.source] at empty <;> subst empty <;>
      simp [Call.run, Call.atoms, Call.source, SpanMapBuilder.keep, SpanMapBuilder.replace,
        SpanMapBuilder.numeral, SpanMapBuilder.absorb]
  · rw [Call.atoms, if_neg empty, Tile.dst_atoms]
    cases call <;> simp only [Call.source] at empty <;>
      simp [Call.run, Call.tile, Tile.dst, SpanMapBuilder.keep, SpanMapBuilder.replace,
        SpanMapBuilder.numeral, SpanMapBuilder.absorb, SpanMapBuilder.pushTransform,
        SpanMapBuilder.advanceSrc, SpanMapBuilder.advanceDst, empty]

/-- The normalised text of a run, whatever its size. -/
@[simp] theorem build_text (calls : List Call) :
    (build calls).1 = Alignment.dst (callAtoms calls) := by
  change (calls.foldl Call.run {}).out = _
  induction calls using List.reverseRecOn with
  | nil => rfl
  | append_singleton calls call ih =>
      simp [List.foldl_append, out_step, ih, callAtoms]

/-- A run whose two texts are representable lays out the alignment of its calls. -/
theorem build_eq {calls : List Call} (fitsSrc : Fits (calls.flatMap Call.source))
    (fitsDst : Fits (build calls).1) :
    (build calls).2 = tableOf (pack (callAtoms calls)) := by
  rw [build_text] at fitsDst
  rw [← src_callAtoms] at fitsSrc
  have built := builds_calls fitsSrc fitsDst
  simp [build, SpanMapBuilder.finish, tableOf, built.segments]

/-- The identity map of a representable text is a single run. -/
theorem identity_eq (text : List Char) : SpanMap.identity text = tableOf (pack (keeps text)) := by
  by_cases empty : text = []
  · subst empty
    rfl
  · have built := builds_empty.keep empty
    simp [SpanMap.identity, SpanMapBuilder.finish, tableOf, built.segments, Tile.atoms]

end AiCoreStack.Pii
