import AiCoreStack.Foundation.Disk
import AiCoreStack.Foundation.Linearizable
import AiCoreStack.Serving.Registry

/-!
# The registry on disk

The manifests of a registry are files in one directory that several tasks use at the same time.
A manifest is written under another name and then renamed, in steps that those of other tasks
come between, and a task may be stopped at any of them.  As long as no two tasks write the same
manifest, the operations are as good as those of a `Store`, each at one moment.
-/

namespace AiCoreStack.Serving

open Foundation Linearizable

/-- `Path::with_extension` of a file name. -/
def withExtension (name ending : String) : String :=
  match extension name with
  | some old => String.ofList (name.toList.take (name.toList.length - old.toList.length)) ++ ending
  | none => name ++ "." ++ ending

/-- The file name of a manifest. -/
def manifestPath (id : String) : String := id ++ ".toml"

/-- The file name under which a manifest is written. -/
def temporaryPath (id : String) : String := withExtension (manifestPath id) "toml.tmp"

/-- The texts of manifests, and how they are read. -/
structure Toml where
  toStringPretty : ModelManifest → List UInt8
  fromStr : List UInt8 → Option ModelManifest
  fromStr_toStringPretty : ∀ manifest, fromStr (toStringPretty manifest) = some manifest

inductive RegistryCall where
  | importLocal (id weights : String) (kind : ModelKind) (architecture : Option String)
      (contextLength : Option UInt32) (chatTemplate : Option String)
  | attachTokenizer (id tokenizer : String)
  | get (id : String)
  | verify (id : String)

/-- What a call gives back; nothing when the text of a manifest does not parse. -/
abbrev RegistryAnswer := Option (Except EngineError ModelManifest)

namespace RegistryCall

variable (files : Files)

/-- The manifest that a call is about. -/
def id : RegistryCall → String
  | importLocal id .. => id
  | attachTokenizer id _ => id
  | get id => id
  | verify id => id

/-- Whether a call writes its manifest. -/
def Writes : RegistryCall → Prop
  | importLocal .. => True
  | attachTokenizer .. => True
  | get _ => False
  | verify _ => False

/-- A call served by a store at one moment. -/
def serve (call : RegistryCall) (store : Store) : RegistryAnswer × Store :=
  let written : Except EngineError (ModelManifest × Store) → RegistryAnswer × Store
    | .ok (manifest, store') => (some (.ok manifest), store')
    | .error e => (some (.error e), store)
  match call with
  | importLocal id weights kind architecture contextLength chatTemplate =>
      written (store.importLocal files id weights kind architecture contextLength chatTemplate)
  | attachTokenizer id tokenizer => written (store.attachTokenizer files id tokenizer)
  | get id => (some (store.get id), store)
  | verify id => (some (store.verify files id), store)

/-- What a call does before it turns to the manifests: it has a manifest to write, or wants to
read one. -/
def prepare : RegistryCall → Except EngineError (Option ModelManifest)
  | importLocal id weights kind architecture contextLength chatTemplate =>
      (validateModelId id).bind fun _ =>
        if files.isFile weights then
          (formatFromPath weights).bind fun format =>
            (files.sha256File weights).map fun sha256 =>
              some
                { id := id
                  kind := kind
                  format := format
                  weights := files.canonicalize weights
                  sha256 := sha256
                  tokenizer := none
                  tokenizerSha256 := none
                  architecture := architecture
                  contextLength := contextLength
                  chatTemplate := chatTemplate }
        else .error (.modelFileNotFound weights)
  | attachTokenizer id tokenizer =>
      if files.isFile tokenizer then (validateModelId id).map fun _ => none
      else .error (.modelFileNotFound tokenizer)
  | get id => (validateModelId id).map fun _ => none
  | verify id => (validateModelId id).map fun _ => none

/-- What a call does with the manifest that it has read: it answers, or has one to write. -/
def resume (manifest : ModelManifest) :
    RegistryCall → Except EngineError (ModelManifest ⊕ ModelManifest)
  | attachTokenizer _ tokenizer =>
      (files.sha256File tokenizer).map fun sha256 =>
        .inr
          { manifest with
            tokenizer := some (files.canonicalize tokenizer)
            tokenizerSha256 := some sha256 }
  | verify _ =>
      (Store.verifyFile files manifest.id manifest.weights manifest.sha256).bind fun _ =>
        match manifest.tokenizer, manifest.tokenizerSha256 with
        | some tokenizer, some expected =>
            (Store.verifyFile files (manifest.id ++ " tokenizer") tokenizer expected).map fun _ =>
              .inl manifest
        | _, _ => .ok (.inl manifest)
  | _ => .ok (.inl manifest)

end RegistryCall

/-- How far a task is with its call. -/
inductive Phase where
  | idle
  | called (call : RegistryCall)
  | found (call : RegistryCall)
  | reading (call : RegistryCall) (file : Nat) (got : List UInt8)
  | replacing (call : RegistryCall) (manifest : ModelManifest)
  | writing (call : RegistryCall) (manifest : ModelManifest) (file offset : Nat)
      (rest : List UInt8)
  | answered (call : RegistryCall) (answer : RegistryAnswer)
  | ended

namespace Phase

/-- The call that a task has begun and not finished. -/
def current : Phase → Option RegistryCall
  | called call => some call
  | found call => some call
  | reading call .. => some call
  | replacing call _ => some call
  | writing call .. => some call
  | _ => none

/-- The next action of a task with a call, and the phase after it.  `size` bounds the bytes that
are read or written at once. -/
def advance (files : Files) (toml : Toml) (size : Nat) (disk : Disk String) :
    Phase → Disk String × Phase
  | called call =>
      match call.prepare files with
      | .error e => (disk, answered call (some (.error e)))
      | .ok (some manifest) => (disk, replacing call manifest)
      | .ok none =>
          -- `is_file`
          if (disk.entry (manifestPath call.id)).isSome then (disk, found call)
          else (disk, answered call (some (.error (.modelNotFound call.id))))
  | found call =>
      match disk.entry (manifestPath call.id) with
      | some file => (disk, reading call file [])
      | none => (disk, answered call (some (.error (.io (manifestPath call.id)))))
  | reading call file got =>
      match ((disk.data file).drop got.length).take (size + 1) with
      | [] =>
          match toml.fromStr got with
          | none => (disk, answered call none)
          | some manifest =>
              match call.resume files manifest with
              | .error e => (disk, answered call (some (.error e)))
              | .ok (.inl manifest) => (disk, answered call (some (.ok manifest)))
              | .ok (.inr manifest) => (disk, replacing call manifest)
      | chunk => (disk, reading call file (got ++ chunk))
  | replacing call manifest =>
      ((disk.create (temporaryPath call.id)).2,
        writing call manifest (disk.create (temporaryPath call.id)).1 0
          (toml.toStringPretty manifest))
  | writing call manifest file offset (byte :: rest) =>
      (disk.write file offset (byte :: rest.take size),
        writing call manifest file (offset + (rest.take size).length + 1) (rest.drop size))
  | writing call manifest _ _ [] =>
      match disk.rename (temporaryPath call.id) (manifestPath call.id) with
      | some disk' => (disk', answered call (some (.ok manifest)))
      | none => (disk, answered call (some (.error (.io (manifestPath call.id)))))
  | phase => (disk, phase)

end Phase

/-- The directory of a registry and the tasks that use it. -/
structure RegistryWorld (ι : Type) where
  disk : Disk String
  phase : ι → Phase

namespace RegistryWorld

variable {ι : Type} [DecidableEq ι]

def start (disk : Disk String) : RegistryWorld ι := ⟨disk, fun _ => .idle⟩

/-- One step of some task.  A task may be stopped at any moment: it is killed, or an action of
its own fails. -/
inductive Step (files : Files) (toml : Toml) :
    RegistryWorld ι → Option (Visible ι RegistryCall RegistryAnswer) → RegistryWorld ι → Prop
  | call (w : RegistryWorld ι) (task : ι) (call : RegistryCall) (fresh : w.phase task = .idle) :
      Step files toml w (some (.call task call))
        { w with phase := Function.update w.phase task (.called call) }
  | advance (w : RegistryWorld ι) (task : ι) (size : Nat)
      (active : (w.phase task).current.isSome) :
      Step files toml w none
        { disk := ((w.phase task).advance files toml size w.disk).1
          phase := Function.update w.phase task ((w.phase task).advance files toml size w.disk).2 }
  | ret (w : RegistryWorld ι) (task : ι) (call : RegistryCall) (answer : RegistryAnswer)
      (done : w.phase task = .answered call answer) :
      Step files toml w (some (.ret task answer))
        { w with phase := Function.update w.phase task .ended }
  | stop (w : RegistryWorld ι) (task : ι) (begun : w.phase task ≠ .idle) :
      Step files toml w none { w with phase := Function.update w.phase task .ended }

/-- No two tasks write the same manifest. -/
def Exclusive (w : RegistryWorld ι) : Prop :=
  ∀ task other call call', task ≠ other → (w.phase task).current = some call →
    (w.phase other).current = some call' → call.Writes → call'.Writes → call.id ≠ call'.id

/-- A step while no two tasks write the same manifest. -/
def ExclusiveStep (files : Files) (toml : Toml) (w : RegistryWorld ι)
    (event : Option (Visible ι RegistryCall RegistryAnswer)) (w' : RegistryWorld ι) : Prop :=
  w.Exclusive ∧ Step files toml w event w'

end RegistryWorld

/-- The manifest files of a directory are the complete texts of the manifests of a store. -/
def Store.OnDisk (toml : Toml) (store : Store) (disk : Disk String) : Prop :=
  ∀ id, validateModelId id = .ok () →
    disk.contents (manifestPath id) = (store id).map toml.toStringPretty

/-! ## Names -/

theorem validateModelId_iff {id : String} :
    validateModelId id = .ok () ↔
      id ≠ "" ∧ ∀ c ∈ id.toList, c.isAlphanum ∨ c = '-' ∨ c = '_' := by
  simp only [validateModelId]
  split
  next refused =>
    simp only [reduceCtorEq, false_iff, not_and]
    intro filled all
    simp only [Bool.or_eq_true, String.isEmpty_iff, filled, false_or, Bool.not_eq_true',
      List.all_eq_false] at refused
    obtain ⟨c, inside, other⟩ := refused
    have := all c inside
    simp_all
  next accepted =>
    simp only [true_iff]
    simp only [Bool.or_eq_true, String.isEmpty_iff, not_or, Bool.not_eq_true', Bool.not_eq_false,
      List.all_eq_true, beq_iff_eq] at accepted
    exact ⟨accepted.1, fun c inside => or_assoc.mp (accepted.2 c inside)⟩

theorem extension_manifestPath {id : String} (valid : validateModelId id = .ok ()) :
    extension (manifestPath id) = some "toml" := by
  obtain ⟨filled, all⟩ := validateModelId_iff.mp valid
  have name : ((manifestPath id).toList.reverse.takeWhile (· ≠ '/')).reverse =
      id.toList ++ ".toml".toList := by
    have flat : (id.toList ++ ".toml".toList).reverse.takeWhile (· ≠ '/') =
        (id.toList ++ ".toml".toList).reverse := by
      refine List.takeWhile_eq_self_iff.mpr fun c inside => decide_eq_true ?_
      rintro rfl
      rw [List.mem_reverse, List.mem_append] at inside
      rcases inside with inside | inside
      · exact absurd (all _ inside) (by decide)
      · exact absurd inside (by decide)
    rw [manifestPath, String.toList_append, flat, List.reverse_reverse]
  have ending : ((id.toList ++ ".toml".toList).reverse.takeWhile (· ≠ '.')).reverse =
      "toml".toList := by
    rw [List.reverse_append, List.takeWhile_append]
    rfl
  have longer : "toml".toList.length + 1 < (id.toList ++ ".toml".toList).length := by
    have positive : 0 < id.toList.length :=
      List.length_pos_iff.mpr fun empty => filled (String.toList_eq_nil_iff.mp empty)
    rw [List.length_append]
    exact Nat.lt_add_of_pos_left positive
  simp only [extension]
  rw [name, ending, if_pos longer]
  rfl

theorem temporaryPath_eq {id : String} (valid : validateModelId id = .ok ()) :
    temporaryPath id = id ++ ".toml.tmp" := by
  simp only [temporaryPath, withExtension, extension_manifestPath valid]
  have dotted : (manifestPath id).toList = (id ++ ".").toList ++ "toml".toList := by
    simp [manifestPath]
  rw [dotted, List.length_append, Nat.add_sub_cancel, List.take_left, ← String.toList_inj]
  simp

theorem manifestPath_injective : Function.Injective manifestPath := by
  intro id id' same
  simpa [manifestPath, ← String.toList_inj] using same

theorem temporaryPath_injOn {id id' : String} (valid : validateModelId id = .ok ())
    (valid' : validateModelId id' = .ok ()) (same : temporaryPath id = temporaryPath id') :
    id = id' := by
  rw [temporaryPath_eq valid, temporaryPath_eq valid'] at same
  simpa [← String.toList_inj] using same

theorem manifestPath_ne_temporaryPath {id' : String} (valid : validateModelId id' = .ok ())
    (id : String) : manifestPath id ≠ temporaryPath id' := by
  rw [temporaryPath_eq valid, manifestPath]
  intro same
  have last := congrArg (fun name : String => name.toList.getLast?) same
  simp at last

/-! ## A call in two halves -/

namespace RegistryCall

variable {files : Files} {call : RegistryCall} {store : Store}

/-- The answer to a call that has read its manifest. -/
def answer (files : Files) (call : RegistryCall) (manifest : ModelManifest) : RegistryAnswer :=
  match call.resume files manifest with
  | .error e => some (.error e)
  | .ok (.inl manifest) => some (.ok manifest)
  | .ok (.inr manifest) => some (.ok manifest)

/-- A call served by a store does what its halves do. -/
theorem serve_eq (files : Files) (call : RegistryCall) (store : Store) :
    call.serve files store =
      match call.prepare files with
      | .error e => (some (.error e), store)
      | .ok (some manifest) =>
          (some (.ok manifest), Function.update store call.id (some manifest))
      | .ok none =>
          match store call.id with
          | none => (some (.error (.modelNotFound call.id)), store)
          | some manifest =>
              match call.resume files manifest with
              | .error e => (some (.error e), store)
              | .ok (.inl manifest) => (some (.ok manifest), store)
              | .ok (.inr manifest) =>
                  (some (.ok manifest), Function.update store call.id (some manifest)) := by
  cases call with
  | importLocal id weights =>
      simp only [serve, prepare, Store.importLocal, RegistryCall.id]
      cases validateModelId id with
      | error e => rfl
      | ok valid =>
          cases files.isFile weights with
          | false => rfl
          | true =>
              cases formatFromPath weights with
              | error e => rfl
              | ok format => cases files.sha256File weights <;> rfl
  | attachTokenizer id tokenizer =>
      simp only [serve, prepare, Store.attachTokenizer, Store.get, RegistryCall.id, resume]
      cases files.isFile tokenizer with
      | false => rfl
      | true =>
          cases validateModelId id with
          | error e => rfl
          | ok valid =>
              cases store id with
              | none => rfl
              | some manifest => cases files.sha256File tokenizer <;> rfl
  | get id =>
      simp only [serve, prepare, Store.get, RegistryCall.id, resume]
      cases validateModelId id with
      | error e => rfl
      | ok valid => cases store id <;> rfl
  | verify id =>
      simp only [serve, prepare, Store.verify, Store.get, RegistryCall.id, resume]
      cases validateModelId id with
      | error e => rfl
      | ok valid =>
          cases store id with
          | none => rfl
          | some manifest =>
              simp only [Except.bind, Except.map]
              cases Store.verifyFile files manifest.id manifest.weights manifest.sha256 with
              | error e => rfl
              | ok checked =>
                  rcases manifest.tokenizer with _ | tokenizer <;>
                    rcases manifest.tokenizerSha256 with _ | expected
                  · rfl
                  · rfl
                  · rfl
                  · simp only
                    cases Store.verifyFile files (manifest.id ++ " tokenizer") tokenizer
                      expected <;> rfl

theorem valid_of_prepare {given : Option ModelManifest}
    (prepared : call.prepare files = .ok given) : validateModelId call.id = .ok () := by
  cases call with
  | importLocal id =>
      obtain ⟨_, valid, _⟩ := bind_ok_iff.mp prepared
      exact valid
  | attachTokenizer id tokenizer =>
      simp only [prepare] at prepared
      split at prepared
      next =>
        obtain ⟨_, valid, _⟩ := map_ok_iff.mp prepared
        exact valid
      next => simp at prepared
  | get id =>
      obtain ⟨_, valid, _⟩ := map_ok_iff.mp prepared
      exact valid
  | verify id =>
      obtain ⟨_, valid, _⟩ := map_ok_iff.mp prepared
      exact valid

theorem writes_of_prepare {manifest : ModelManifest}
    (prepared : call.prepare files = .ok (some manifest)) : call.Writes := by
  cases call with
  | importLocal => trivial
  | attachTokenizer => trivial
  | get id =>
      obtain ⟨_, _, other⟩ := map_ok_iff.mp prepared
      simp at other
  | verify id =>
      obtain ⟨_, _, other⟩ := map_ok_iff.mp prepared
      simp at other

theorem writes_of_resume {old manifest : ModelManifest}
    (resumed : call.resume files old = .ok (.inr manifest)) : call.Writes := by
  cases call with
  | importLocal => trivial
  | attachTokenizer => trivial
  | get id => simp [resume] at resumed
  | verify id =>
      obtain ⟨_, _, rest⟩ := bind_ok_iff.mp resumed
      split at rest
      next =>
        obtain ⟨_, _, other⟩ := map_ok_iff.mp rest
        simp at other
      next => simp at rest

end RegistryCall

/-! ## What a write leaves alone -/

/-- A file that nobody writes any more. -/
def Settled (disk : Disk String) (file : Nat) : Prop :=
  file < disk.next ∧
    ∀ id, validateModelId id = .ok () → disk.entry (temporaryPath id) ≠ some file

theorem settled_of_entry {disk : Disk String} {id : String} {file : Nat}
    (found : disk.entry (manifestPath id) = some file) : Settled disk file :=
  ⟨disk.entry_lt found, fun _ valid here =>
    manifestPath_ne_temporaryPath valid id (disk.distinct found here)⟩

/-- What an action on the manifest of an identifier leaves as it was. -/
structure Leaves (id : String) (disk disk' : Disk String) : Prop where
  settled : ∀ file, Settled disk file → Settled disk' file ∧ disk'.data file = disk.data file
  temporary : ∀ other, other ≠ id → validateModelId other = .ok () →
    ∀ file, disk.entry (temporaryPath other) = some file →
      disk'.entry (temporaryPath other) = some file ∧ disk'.data file = disk.data file
  present : ∀ other, (disk.entry (manifestPath other)).isSome →
    (disk'.entry (manifestPath other)).isSome

section

variable {toml : Toml} {store : Store} {disk disk' : Disk String} {id : String}

theorem leaves_of_touches (valid : validateModelId id = .ok ())
    (touches : Disk.Touches (temporaryPath id) disk disk') : Leaves id disk disk' where
  settled file settled := by
    obtain ⟨old, unwritten⟩ := settled
    refine ⟨⟨old.trans_le touches.next, fun other valid' here => ?_⟩,
      touches.data file old (unwritten id valid)⟩
    rcases eq_or_ne other id with rfl | apart
    · rcases touches.own file here with here | fresh
      · exact unwritten other valid here
      · exact absurd old (not_lt.mpr fresh)
    · have kept := touches.entry (temporaryPath other) fun same =>
        apart (temporaryPath_injOn valid' valid same)
      exact unwritten other valid' (kept ▸ here)
  temporary other apart valid' file here := by
    have distinct : temporaryPath other ≠ temporaryPath id := fun same =>
      apart (temporaryPath_injOn valid' valid same)
    refine ⟨(touches.entry _ distinct).trans here, ?_⟩
    exact touches.data file (disk.entry_lt here) fun same => distinct (disk.distinct here same)
  present other here := by
    rwa [touches.entry _ (manifestPath_ne_temporaryPath valid other)]

theorem onDisk_of_touches (valid : validateModelId id = .ok ())
    (touches : Disk.Touches (temporaryPath id) disk disk') (onDisk : store.OnDisk toml disk) :
    store.OnDisk toml disk' := by
  intro other valid'
  rw [← onDisk other valid', Disk.contents, Disk.contents,
    touches.entry _ (manifestPath_ne_temporaryPath valid other)]
  cases found : disk.entry (manifestPath other) with
  | none => rfl
  | some file =>
      refine congrArg some (touches.data file (disk.entry_lt found) fun same => ?_)
      exact manifestPath_ne_temporaryPath valid other (disk.distinct found same)

variable {file : Nat}

theorem leaves_of_rename (valid : validateModelId id = .ok ())
    (named : disk.entry (temporaryPath id) = some file)
    (renamed : disk.rename (temporaryPath id) (manifestPath id) = some disk') :
    Leaves id disk disk' := by
  obtain ⟨entry, data, next⟩ := Disk.rename_eq_some named renamed
  refine ⟨fun other settled => ⟨⟨next ▸ settled.1, fun other' valid' here => ?_⟩, by rw [data]⟩,
    fun other apart valid' file' here => ⟨?_, by rw [data]⟩, fun other here => ?_⟩
  · rw [entry, Function.update_of_ne (manifestPath_ne_temporaryPath valid' id).symm] at here
    exact settled.2 other' valid' (unlink_eq_some.mp here).2
  · rw [entry, Function.update_of_ne (manifestPath_ne_temporaryPath valid' id).symm]
    exact unlink_eq_some.mpr ⟨fun same => apart (temporaryPath_injOn valid' valid same), here⟩
  · rw [entry]
    rcases eq_or_ne (manifestPath other) (manifestPath id) with same | apart
    · rw [same, Function.update_self]
      rfl
    · rwa [Function.update_of_ne apart,
        Function.update_of_ne (manifestPath_ne_temporaryPath valid other)]

theorem onDisk_of_rename {manifest : ModelManifest} (valid : validateModelId id = .ok ())
    (named : disk.entry (temporaryPath id) = some file)
    (written : disk.data file = toml.toStringPretty manifest)
    (renamed : disk.rename (temporaryPath id) (manifestPath id) = some disk')
    (onDisk : store.OnDisk toml disk) :
    Store.OnDisk toml (Function.update store id (some manifest)) disk' := by
  obtain ⟨entry, data, -⟩ := Disk.rename_eq_some named renamed
  intro other valid'
  rw [Disk.contents, entry, data]
  rcases eq_or_ne other id with rfl | apart
  · rw [Function.update_self, Function.update_self]
    exact congrArg some written
  · rw [Function.update_of_ne apart, Function.update_of_ne (manifestPath_injective.ne apart),
      Function.update_of_ne (manifestPath_ne_temporaryPath valid other)]
    exact onDisk other valid'

end

/-! ## The directory follows a store -/

/-- The manifest is what the call would write if it were served now. -/
def Composed (files : Files) (store : Store) (call : RegistryCall) (manifest : ModelManifest) :
    Prop :=
  call.prepare files = .ok (some manifest) ∨
    ∃ old, call.prepare files = .ok none ∧ store call.id = some old ∧
      call.resume files old = .ok (.inr manifest)

namespace Composed

variable {files : Files} {store : Store} {call : RegistryCall} {manifest : ModelManifest}

theorem writes (composed : Composed files store call manifest) : call.Writes := by
  rcases composed with prepared | ⟨old, _, _, resumed⟩
  · exact RegistryCall.writes_of_prepare prepared
  · exact RegistryCall.writes_of_resume resumed

theorem valid (composed : Composed files store call manifest) :
    validateModelId call.id = .ok () := by
  rcases composed with prepared | ⟨old, prepared, _, _⟩
  · exact RegistryCall.valid_of_prepare prepared
  · exact RegistryCall.valid_of_prepare prepared

theorem serve (composed : Composed files store call manifest) :
    call.serve files store =
      (some (.ok manifest), Function.update store call.id (some manifest)) := by
  rw [RegistryCall.serve_eq files]
  rcases composed with prepared | ⟨old, prepared, found, resumed⟩
  · simp only [prepared]
  · simp only [prepared, found, resumed]

theorem congr {store' : Store} (composed : Composed files store call manifest)
    (same : store' call.id = store call.id) : Composed files store' call manifest := by
  rcases composed with prepared | ⟨old, prepared, found, resumed⟩
  · exact .inl prepared
  · exact .inr ⟨old, prepared, same.trans found, resumed⟩

end Composed

abbrev CallStatus := Status RegistryCall RegistryAnswer

/-- How far the call of a task is with the directory, and with the store that serves each call at
one moment: when a read call opens its manifest or finds none, and when a write renames its
file. -/
inductive Matches (files : Files) (toml : Toml) (disk : Disk String) (store : Store) :
    Phase → CallStatus → Prop
  | idle : Matches files toml disk store .idle .idle
  | called (call : RegistryCall) : Matches files toml disk store (.called call) (.called call)
  | found {call : RegistryCall} (prepared : call.prepare files = .ok none)
      (present : (disk.entry (manifestPath call.id)).isSome) :
      Matches files toml disk store (.found call) (.called call)
  | writer {call : RegistryCall} {file : Nat} {got : List UInt8} {manifest : ModelManifest}
      (prepared : call.prepare files = .ok none) (settled : Settled disk file)
      (text : disk.data file = toml.toStringPretty manifest) (front : got <+: disk.data file)
      (writes : call.Writes) (newest : store call.id = some manifest) :
      Matches files toml disk store (.reading call file got) (.called call)
  | reader {call : RegistryCall} {file : Nat} {got : List UInt8} {manifest : ModelManifest}
      (settled : Settled disk file) (text : disk.data file = toml.toStringPretty manifest)
      (front : got <+: disk.data file) (reads : ¬ call.Writes) :
      Matches files toml disk store (.reading call file got)
        (.served call (call.answer files manifest))
  | replacing {call : RegistryCall} {manifest : ModelManifest}
      (composed : Composed files store call manifest) :
      Matches files toml disk store (.replacing call manifest) (.called call)
  | writing {call : RegistryCall} {manifest : ModelManifest} {file : Nat} {rest : List UInt8}
      (composed : Composed files store call manifest)
      (named : disk.entry (temporaryPath call.id) = some file)
      (text : disk.data file ++ rest = toml.toStringPretty manifest) :
      Matches files toml disk store
        (.writing call manifest file (disk.data file).length rest) (.called call)
  | answered (call : RegistryCall) (answer : Except EngineError ModelManifest) :
      Matches files toml disk store (.answered call (some answer)) (.served call (some answer))
  | ended : Matches files toml disk store .ended .ended

/-- The two phases do not write the same manifest. -/
def Apart (phase other : Phase) : Prop :=
  ∀ call call', phase.current = some call → other.current = some call' →
    call.Writes → call'.Writes → call.id ≠ call'.id

/-- What an action on one manifest leaves alone is enough for the other tasks. -/
theorem Matches.frame {files : Files} {toml : Toml} {disk disk' : Disk String}
    {store store' : Store} {phase : Phase} {status : CallStatus} {id : String}
    (leaves : Leaves id disk disk') (same : ∀ other, other ≠ id → store' other = store other)
    (apart : ∀ call, phase.current = some call → call.Writes → call.id ≠ id)
    (here : Matches files toml disk store phase status) :
    Matches files toml disk' store' phase status := by
  cases here with
  | idle => exact .idle
  | called call => exact .called call
  | found prepared present => exact .found prepared (leaves.present _ present)
  | writer prepared settled text front writes newest =>
      obtain ⟨settled', kept⟩ := leaves.settled _ settled
      have newest' := (same _ (apart _ rfl writes)).trans newest
      exact .writer prepared settled' (kept.trans text) (kept ▸ front) writes newest'
  | reader settled text front reads =>
      obtain ⟨settled', kept⟩ := leaves.settled _ settled
      exact .reader settled' (kept.trans text) (kept ▸ front) reads
  | replacing composed =>
      exact .replacing (composed.congr (same _ (apart _ rfl composed.writes)))
  | writing composed named text =>
      have distinct := apart _ rfl composed.writes
      obtain ⟨named', kept⟩ := leaves.temporary _ distinct composed.valid _ named
      rw [← kept] at text ⊢
      exact .writing (composed.congr (same _ distinct)) named' text
  | answered call answer => exact .answered call answer
  | ended => exact .ended

/-- An action of a task, which serves the call of the task or nothing. -/
inductive MayServe (files : Files) : Store → CallStatus → Store → CallStatus → Prop
  | nothing (store : Store) (status : CallStatus) : MayServe files store status store status
  | call (store : Store) (call : RegistryCall) :
      MayServe files store (.called call) (call.serve files store).2
        (.served call (call.serve files store).1)

/-- What the atomic store does when a task goes on. -/
def Follows (files : Files) (toml : Toml) (disk : Disk String) (store : Store) (phase : Phase)
    (status : CallStatus) (next : Disk String × Phase) : Prop :=
  ∃ store' status', MayServe files store status store' status' ∧ store'.OnDisk toml next.1 ∧
    Matches files toml next.1 store' next.2 status' ∧
    ∀ other status'', Apart phase other → Matches files toml disk store other status'' →
      Matches files toml next.1 store' other status''

section

variable {files : Files} {toml : Toml} {disk : Disk String} {store : Store} {phase phase' : Phase}
  {status : CallStatus} {call : RegistryCall}

theorem follows_nothing (onDisk : store.OnDisk toml disk)
    (reached : Matches files toml disk store phase' status) :
    Follows files toml disk store phase status (disk, phase') :=
  ⟨store, status, .nothing store status, onDisk, reached, fun _ _ _ here => here⟩

theorem follows_answer {answer : RegistryAnswer} (onDisk : store.OnDisk toml disk)
    (served : call.serve files store = (answer, store))
    (reached : Matches files toml disk store phase' (.served call answer)) :
    Follows files toml disk store phase (.called call) (disk, phase') := by
  have step : MayServe files store (.called call) (call.serve files store).2
      (.served call (call.serve files store).1) := .call store call
  rw [served] at step
  exact ⟨store, _, step, onDisk, reached, fun _ _ _ here => here⟩

/-- A call begins: it is refused, has composed a manifest, or looks for one. -/
theorem follows_called (size : Nat) (onDisk : store.OnDisk toml disk) :
    Follows files toml disk store (.called call) (.called call)
      ((Phase.called call).advance files toml size disk) := by
  have serve := call.serve_eq files store
  simp only [Phase.advance]
  cases prepared : call.prepare files with
  | error e =>
      simp only [prepared] at serve ⊢
      exact follows_answer onDisk serve (.answered call _)
  | ok given =>
      cases given with
      | some manifest => exact follows_nothing onDisk (.replacing (.inl prepared))
      | none =>
          have text := onDisk call.id (RegistryCall.valid_of_prepare prepared)
          simp only [prepared] at serve ⊢
          split
          next present => exact follows_nothing onDisk (.found prepared present)
          next missing =>
            rw [Option.not_isSome_iff_eq_none] at missing
            rw [Disk.contents, missing, Option.map_none, eq_comm, Option.map_eq_none_iff] at text
            simp only [text] at serve
            exact follows_answer onDisk serve (.answered call _)

/-- A call opens its manifest, and so chooses what it reads. -/
theorem follows_found (size : Nat) (onDisk : store.OnDisk toml disk)
    (prepared : call.prepare files = .ok none)
    (present : (disk.entry (manifestPath call.id)).isSome) :
    Follows files toml disk store (.found call) (.called call)
      ((Phase.found call).advance files toml size disk) := by
  obtain ⟨file, opened⟩ := Option.isSome_iff_exists.mp present
  have text := onDisk call.id (RegistryCall.valid_of_prepare prepared)
  rw [Disk.contents, opened, Option.map_some, eq_comm, Option.map_eq_some_iff] at text
  obtain ⟨manifest, newest, text⟩ := text
  simp only [Phase.advance, opened]
  have settled := settled_of_entry opened
  by_cases writes : call.Writes
  · exact follows_nothing onDisk
      (.writer prepared settled text.symm (List.nil_prefix) writes newest)
  · have serve := call.serve_eq files store
    have answer : call.serve files store = (call.answer files manifest, store) := by
      simp only [prepared, newest] at serve
      rw [serve, RegistryCall.answer]
      cases resumed : call.resume files manifest with
      | error e => rfl
      | ok given =>
          cases given with
          | inl manifest => rfl
          | inr manifest => exact absurd (RegistryCall.writes_of_resume resumed) writes
    exact follows_answer onDisk answer (.reader settled text.symm (List.nil_prefix) writes)

theorem prefix_concat_take {got bytes : List UInt8} (front : got <+: bytes) (size : Nat) :
    got ++ (bytes.drop got.length).take size <+: bytes := by
  obtain ⟨rest, rfl⟩ := front
  rw [List.drop_left]
  exact (List.prefix_append_right_inj got).mpr (List.take_prefix ..)

theorem eq_of_take_drop {got bytes : List UInt8} {size : Nat} (front : got <+: bytes)
    (nothing : (bytes.drop got.length).take (size + 1) = []) : got = bytes := by
  obtain ⟨rest, rfl⟩ := front
  rw [List.drop_left] at nothing
  rcases List.take_eq_nil_iff.mp nothing with zero | empty
  · omega
  · rw [empty, List.append_nil]

/-- A call that writes reads the newest manifest, chunk by chunk, and composes another one. -/
theorem follows_writer {file : Nat} {got : List UInt8} {manifest : ModelManifest} (size : Nat)
    (onDisk : store.OnDisk toml disk) (prepared : call.prepare files = .ok none)
    (settled : Settled disk file) (text : disk.data file = toml.toStringPretty manifest)
    (front : got <+: disk.data file) (writes : call.Writes)
    (newest : store call.id = some manifest) :
    Follows files toml disk store (.reading call file got) (.called call)
      ((Phase.reading call file got).advance files toml size disk) := by
  simp only [Phase.advance]
  split
  next nothing =>
    rw [eq_of_take_drop front nothing, text, toml.fromStr_toStringPretty]
    have serve := call.serve_eq files store
    simp only [prepared, newest] at serve ⊢
    cases resumed : call.resume files manifest with
    | error e =>
        simp only [resumed] at serve ⊢
        exact follows_answer onDisk serve (.answered call _)
    | ok given =>
        cases given with
        | inl manifest =>
            simp only [resumed] at serve ⊢
            exact follows_answer onDisk serve (.answered call _)
        | inr manifest =>
            exact follows_nothing onDisk (.replacing (.inr ⟨_, prepared, newest, resumed⟩))
  next =>
    exact follows_nothing onDisk
      (.writer prepared settled text (prefix_concat_take front (size + 1)) writes newest)

/-- A call that only reads has its answer from the file that it has opened. -/
theorem follows_reader {file : Nat} {got : List UInt8} {manifest : ModelManifest} (size : Nat)
    (onDisk : store.OnDisk toml disk) (settled : Settled disk file)
    (text : disk.data file = toml.toStringPretty manifest) (front : got <+: disk.data file)
    (reads : ¬ call.Writes) :
    Follows files toml disk store (.reading call file got)
      (.served call (call.answer files manifest))
      ((Phase.reading call file got).advance files toml size disk) := by
  simp only [Phase.advance]
  split
  next nothing =>
    rw [eq_of_take_drop front nothing, text, toml.fromStr_toStringPretty]
    simp only [RegistryCall.answer]
    cases resumed : call.resume files manifest with
    | error e => exact follows_nothing onDisk (.answered call _)
    | ok given =>
        cases given with
        | inl manifest => exact follows_nothing onDisk (.answered call _)
        | inr manifest => exact absurd (RegistryCall.writes_of_resume resumed) reads
  next =>
    exact follows_nothing onDisk (.reader settled text (prefix_concat_take front (size + 1)) reads)

/-- A file that no other task holds is begun. -/
theorem follows_replacing {manifest : ModelManifest} (size : Nat) (onDisk : store.OnDisk toml disk)
    (composed : Composed files store call manifest) :
    Follows files toml disk store (.replacing call manifest) (.called call)
      ((Phase.replacing call manifest).advance files toml size disk) := by
  have touches := disk.touches_create (temporaryPath call.id)
  have named := disk.create_entry (temporaryPath call.id)
  have empty := disk.create_data (temporaryPath call.id)
  refine ⟨store, _, .nothing .., onDisk_of_touches composed.valid touches onDisk, ?_, ?_⟩
  · have text : (disk.create (temporaryPath call.id)).2.data
        (disk.create (temporaryPath call.id)).1 ++ toml.toStringPretty manifest =
          toml.toStringPretty manifest := by rw [empty, List.nil_append]
    have begun := Matches.writing composed named text
    rwa [empty] at begun
  · intro other status'' apart here
    refine here.frame (leaves_of_touches composed.valid touches) (fun _ _ => rfl) ?_
    exact fun call' current writes => (apart _ _ rfl current composed.writes writes).symm

/-- The file grows by a chunk. -/
theorem follows_writing {manifest : ModelManifest} {file : Nat} {byte : UInt8} {rest : List UInt8}
    (size : Nat) (onDisk : store.OnDisk toml disk) (composed : Composed files store call manifest)
    (named : disk.entry (temporaryPath call.id) = some file)
    (text : disk.data file ++ byte :: rest = toml.toStringPretty manifest) :
    Follows files toml disk store
      (.writing call manifest file (disk.data file).length (byte :: rest)) (.called call)
      ((Phase.writing call manifest file (disk.data file).length (byte :: rest)).advance
        files toml size disk) := by
  have touches := Disk.touches_write named (disk.data file).length (byte :: rest.take size)
  have grown := disk.write_data_self file (byte :: rest.take size)
  refine ⟨store, _, .nothing .., onDisk_of_touches composed.valid touches onDisk, ?_, ?_⟩
  · have text' : (disk.write file (disk.data file).length (byte :: rest.take size)).data file ++
        rest.drop size = toml.toStringPretty manifest := by
      rw [grown, ← text, List.append_assoc, List.cons_append, List.take_append_drop]
    have named' : (disk.write file (disk.data file).length (byte :: rest.take size)).entry
        (temporaryPath call.id) = some file := named
    have more := Matches.writing composed named' text'
    rwa [grown, List.length_append, List.length_cons, ← Nat.add_assoc] at more
  · intro other status'' apart here
    refine here.frame (leaves_of_touches composed.valid touches) (fun _ _ => rfl) ?_
    exact fun call' current writes => (apart _ _ rfl current composed.writes writes).symm

/-- The written file becomes the manifest, and the call is served. -/
theorem follows_renaming {manifest : ModelManifest} {file : Nat} (size : Nat)
    (onDisk : store.OnDisk toml disk) (composed : Composed files store call manifest)
    (named : disk.entry (temporaryPath call.id) = some file)
    (text : disk.data file = toml.toStringPretty manifest) :
    Follows files toml disk store
      (.writing call manifest file (disk.data file).length []) (.called call)
      ((Phase.writing call manifest file (disk.data file).length []).advance
        files toml size disk) := by
  obtain ⟨disk', renamed⟩ := Disk.rename_isSome named (manifestPath call.id)
  have step : MayServe files store (.called call) (call.serve files store).2
      (.served call (call.serve files store).1) := .call store call
  rw [composed.serve] at step
  simp only [Phase.advance, renamed]
  refine ⟨_, _, step, onDisk_of_rename composed.valid named text renamed onDisk, .answered .., ?_⟩
  intro other status'' apart here
  refine here.frame (leaves_of_rename composed.valid named renamed)
    (fun id distinct => Function.update_of_ne distinct ..) ?_
  exact fun call' current writes => (apart _ _ rfl current composed.writes writes).symm

/-- Whatever a task does next, the store follows. -/
theorem follows_advance (size : Nat) (onDisk : store.OnDisk toml disk)
    (here : Matches files toml disk store phase status) (active : phase.current.isSome) :
    Follows files toml disk store phase status (phase.advance files toml size disk) := by
  cases here with
  | idle => simp [Phase.current] at active
  | called call => exact follows_called size onDisk
  | found prepared present => exact follows_found size onDisk prepared present
  | writer prepared settled text front writes newest =>
      exact follows_writer size onDisk prepared settled text front writes newest
  | reader settled text front reads => exact follows_reader size onDisk settled text front reads
  | replacing composed => exact follows_replacing size onDisk composed
  | @writing _ _ _ rest composed named text =>
      cases rest with
      | cons byte rest => exact follows_writing size onDisk composed named text
      | nil =>
          rw [List.append_nil] at text
          exact follows_renaming size onDisk composed named text
  | answered call answer => simp [Phase.current] at active
  | ended => simp [Phase.current] at active

end

/-! ## Runs -/

namespace RegistryWorld

variable {ι : Type} [DecidableEq ι] {files : Files} {toml : Toml} {w w' : RegistryWorld ι}
  {event : Option (Visible ι RegistryCall RegistryAnswer)}
  {a : Atomic ι Store RegistryCall RegistryAnswer}

/-- The directory and the tasks are those of a store that serves each call at one moment. -/
structure Related (files : Files) (toml : Toml) (w : RegistryWorld ι)
    (a : Atomic ι Store RegistryCall RegistryAnswer) : Prop where
  onDisk : a.state.OnDisk toml w.disk
  reached : ∀ task, Matches files toml w.disk a.state (w.phase task) (a.status task)

theorem Related.update (related : Related files toml w a) (task : ι) {phase : Phase}
    {status : CallStatus} (here : Matches files toml w.disk a.state phase status) :
    Related files toml { w with phase := Function.update w.phase task phase }
      { a with status := Function.update a.status task status } := by
  refine ⟨related.onDisk, fun other => ?_⟩
  rcases eq_or_ne other task with rfl | apart
  · simpa only [Function.update_self] using here
  · simpa only [Function.update_of_ne apart] using related.reached other

theorem Related.step (related : Related files toml w a)
    (step : ExclusiveStep files toml w event w') :
    (event = none ∧ Related files toml w' a) ∨
      ∃ a', Atomic.Step (RegistryCall.serve files) a event a' ∧ Related files toml w' a' := by
  obtain ⟨exclusive, step⟩ := step
  cases step with
  | call task call fresh =>
      have here := related.reached task
      rw [fresh] at here
      cases status : a.status task <;> rw [status] at here <;> cases here
      exact .inr ⟨_, .call a task call status, related.update task (.called call)⟩
  | advance task size active =>
      obtain ⟨store', status', served, onDisk, reached, others⟩ :=
        follows_advance size related.onDisk (related.reached task) active
      have after : Related files toml
          { disk := ((w.phase task).advance files toml size w.disk).1
            phase := Function.update w.phase task
              ((w.phase task).advance files toml size w.disk).2 }
          { state := store', status := Function.update a.status task status' } := by
        refine ⟨onDisk, fun other => ?_⟩
        rcases eq_or_ne other task with rfl | apart
        · simpa only [Function.update_self] using reached
        · simp only [Function.update_of_ne apart]
          exact others _ _ (exclusive task other · · apart.symm) (related.reached other)
      generalize status : a.status task = old at served
      cases served with
      | nothing =>
          rw [← status, Function.update_eq_self] at after
          exact .inl ⟨rfl, after⟩
      | call call => exact .inr ⟨_, .serve a task call status, after⟩
  | ret task call answer done =>
      have here := related.reached task
      rw [done] at here
      cases status : a.status task <;> rw [status] at here <;> cases here
      exact .inr ⟨_, .ret a task call _ status, related.update task .ended⟩
  | stop task begun =>
      refine .inr ⟨_, .stop a task fun idle => begun ?_, related.update task .ended⟩
      have here := related.reached task
      rw [idle] at here
      generalize phase : w.phase task = p at here
      cases here
      rfl

theorem related_of_run {store : Store} {disk : Disk String}
    {history : List (Visible ι RegistryCall RegistryAnswer)} (onDisk : store.OnDisk toml disk)
    (run : Trace (ExclusiveStep files toml) (start disk) history w) :
    ∃ a, Trace (Atomic.Step (RegistryCall.serve files)) (Atomic.start store) history a ∧
      Related files toml w a := by
  have begun : Related files toml (start disk : RegistryWorld ι) (Atomic.start store) :=
    ⟨onDisk, fun _ => .idle⟩
  refine Trace.simulates (fun last before => ?_) run begun
  exact Related.step before last

/-- As long as no two tasks write the same manifest, the calls linearize to those of a store, and
the directory has its manifests, whichever tasks have been stopped.  The weight and tokenizer
files do not change meanwhile. -/
theorem registry_linearizes {store : Store} {disk : Disk String}
    {history : List (Visible ι RegistryCall RegistryAnswer)} (onDisk : store.OnDisk toml disk)
    (run : Trace (ExclusiveStep files toml) (start disk) history w) :
    ∃ order store', Linearizes (RegistryCall.serve files) store history order store' ∧
      store'.OnDisk toml w.disk := by
  obtain ⟨a, run', related⟩ := related_of_run onDisk run
  obtain ⟨order, linearizes⟩ := Atomic.linearizes run'
  exact ⟨order, a.state, linearizes, related.onDisk⟩

end RegistryWorld

/-! ## A task that goes on alone -/

namespace Phase

variable {files : Files} {toml : Toml}

/-- The first actions of one task, when nobody else does anything. -/
def alone (files : Files) (toml : Toml) (sizes : Nat → Nat) :
    Nat → Disk String × Phase → Disk String × Phase
  | 0, now => now
  | n + 1, now =>
      alone files toml (fun k => sizes (k + 1)) n (now.2.advance files toml (sizes 0) now.1)

/-- How much a task still has to do: the stage of its call, and the bytes left in this stage. -/
def left (disk : Disk String) : Phase → ℕ ×ₗ ℕ
  | called _ => toLex (5, 0)
  | found _ => toLex (4, 0)
  | reading _ file got => toLex (3, (disk.data file).length - got.length)
  | replacing _ _ => toLex (2, 0)
  | writing _ _ _ _ rest => toLex (1, rest.length)
  | _ => toLex (0, 0)

theorem later_stage {stage stage' bytes bytes' : ℕ} (less : stage < stage') :
    toLex (stage, bytes) < toLex (stage', bytes') :=
  Prod.Lex.toLex_lt_toLex.mpr (.inl less)

theorem left_advance_lt (files : Files) (toml : Toml) (disk : Disk String) {phase : Phase}
    (size : Nat)
    (active : phase.current.isSome) :
    (phase.advance files toml size disk).2.left (phase.advance files toml size disk).1 <
      phase.left disk := by
  cases phase with
  | idle => simp [current] at active
  | called call =>
      simp only [advance]
      split
      · exact later_stage (by norm_num)
      · exact later_stage (by norm_num)
      · split <;> exact later_stage (by norm_num)
  | found call =>
      simp only [advance]
      split <;> exact later_stage (by norm_num)
  | reading call file got =>
      simp only [advance]
      split
      next =>
        split
        · exact later_stage (by norm_num)
        · split <;> exact later_stage (by norm_num)
      next =>
        refine Prod.Lex.toLex_lt_toLex.mpr (.inr ⟨rfl, ?_⟩)
        rename_i more
        have unread : (disk.data file).drop got.length ≠ [] := fun empty =>
          more (by rw [empty]; rfl)
        have short : got.length < (disk.data file).length := by
          by_contra long
          exact unread (List.drop_eq_nil_of_le (not_lt.mp long))
        simp only [List.length_append, List.length_take, List.length_drop]
        omega
  | replacing call manifest => exact later_stage (by norm_num)
  | writing call manifest file offset rest =>
      cases rest with
      | nil =>
          simp only [advance]
          split <;> exact later_stage (by norm_num)
      | cons byte rest =>
          refine Prod.Lex.toLex_lt_toLex.mpr (.inr ⟨rfl, ?_⟩)
          exact Nat.lt_succ_of_le (List.drop_sublist ..).length_le
  | answered call answer => simp [current] at active
  | ended => simp [current] at active

theorem current_advance {disk : Disk String} {phase : Phase} {call : RegistryCall} (size : Nat)
    (active : phase.current = some call) :
    (phase.advance files toml size disk).2.current = some call ∨
      ∃ answer, (phase.advance files toml size disk).2 = .answered call answer := by
  cases phase with
  | idle => simp [current] at active
  | called call' =>
      cases active
      simp only [advance]
      split
      · exact .inr ⟨_, rfl⟩
      · exact .inl rfl
      · split
        · exact .inl rfl
        · exact .inr ⟨_, rfl⟩
  | found call' =>
      cases active
      simp only [advance]
      split
      · exact .inl rfl
      · exact .inr ⟨_, rfl⟩
  | reading call' file got =>
      cases active
      simp only [advance]
      split
      next =>
        split
        · exact .inr ⟨_, rfl⟩
        · split
          · exact .inr ⟨_, rfl⟩
          · exact .inr ⟨_, rfl⟩
          · exact .inl rfl
      next => exact .inl rfl
  | replacing call' manifest =>
      cases active
      exact .inl rfl
  | writing call' manifest file offset rest =>
      cases active
      cases rest with
      | nil =>
          simp only [advance]
          split <;> exact .inr ⟨_, rfl⟩
      | cons byte rest => exact .inl rfl
  | answered call' answer => simp [current] at active
  | ended => simp [current] at active

/-- However its actions are cut into pieces, a task with a call answers it. -/
theorem alone_answers {store : Store} {disk : Disk String} {phase : Phase} {status : CallStatus}
    {call : RegistryCall} (onDisk : store.OnDisk toml disk)
    (here : Matches files toml disk store phase status) (active : phase.current = some call)
    (sizes : Nat → Nat) :
    ∃ n answer, (alone files toml sizes n (disk, phase)).2 = .answered call (some answer) := by
  generalize measure : phase.left disk = now
  induction now using WellFoundedLT.induction generalizing disk phase store status sizes with
  | ind now ih =>
      have less := left_advance_lt files toml disk (sizes 0)
        (Option.isSome_iff_exists.mpr ⟨call, active⟩)
      obtain ⟨store', status', -, onDisk', reached, -⟩ :=
        follows_advance (sizes 0) onDisk here (Option.isSome_iff_exists.mpr ⟨call, active⟩)
      rcases current_advance (sizes 0) active with active' | ⟨answer, done⟩
      · obtain ⟨n, answer, done⟩ :=
          ih _ (measure ▸ less) onDisk' reached active' (fun k => sizes (k + 1)) rfl
        exact ⟨n + 1, answer, done⟩
      · rw [done] at reached
        cases reached
        exact ⟨1, _, done⟩

end Phase

namespace RegistryWorld

variable {ι : Type} [DecidableEq ι] {files : Files} {toml : Toml} {w : RegistryWorld ι}
  {history : List (Visible ι RegistryCall RegistryAnswer)}

/-- A task that goes on writes nothing else. -/
theorem Exclusive.advance (exclusive : w.Exclusive) {task : ι} (size : Nat)
    (active : (w.phase task).current.isSome) :
    Exclusive
      { disk := ((w.phase task).advance files toml size w.disk).1
        phase := Function.update w.phase task
          ((w.phase task).advance files toml size w.disk).2 } := by
  have kept : ∀ other call, (Function.update w.phase task
      ((w.phase task).advance files toml size w.disk).2 other).current = some call →
        (w.phase other).current = some call := by
    intro other call current
    rcases eq_or_ne other task with rfl | apart
    · obtain ⟨call', active⟩ := Option.isSome_iff_exists.mp active
      rw [Function.update_self] at current
      rcases Phase.current_advance size active with same | ⟨answer, answered⟩
      · rw [active, ← current, same]
      · rw [answered] at current
        simp [Phase.current] at current
    · rwa [Function.update_of_ne apart] at current
  intro one other call call' apart here here'
  exact exclusive one other call call' apart (kept _ _ here) (kept _ _ here')

/-- The actions of one task make a run in which the others do nothing. -/
theorem trace_alone {w₀ : RegistryWorld ι} (run : Trace (ExclusiveStep files toml) w₀ history w)
    (exclusive : w.Exclusive) (task : ι) (sizes : Nat → Nat) (n : Nat) :
    ∃ w', Trace (ExclusiveStep files toml) w₀ history w' ∧ w'.Exclusive ∧
      (w'.disk, w'.phase task) = Phase.alone files toml sizes n (w.disk, w.phase task) ∧
      ∀ other, other ≠ task → w'.phase other = w.phase other := by
  induction n generalizing w sizes with
  | zero => exact ⟨w, run, exclusive, rfl, fun _ _ => rfl⟩
  | succ n ih =>
      by_cases active : (w.phase task).current.isSome
      · obtain ⟨w', run', exclusive', now, others⟩ :=
          ih (run.silent ⟨exclusive, .advance w task (sizes 0) active⟩)
            (exclusive.advance (sizes 0) active) fun k => sizes (k + 1)
        refine ⟨w', run', exclusive', ?_, fun other apart => ?_⟩
        · simp only [Function.update_self] at now
          exact now
        · simpa only [Function.update_of_ne apart] using others other apart
      · have still : (w.phase task).advance files toml (sizes 0) w.disk =
            (w.disk, w.phase task) := by
          generalize w.phase task = phase at active
          cases phase with
          | idle => rfl
          | answered call answer => rfl
          | ended => rfl
          | _ => exact absurd rfl active
        obtain ⟨w', run', exclusive', now, others⟩ := ih run exclusive fun k => sizes (k + 1)
        exact ⟨w', run', exclusive', by rw [now, Phase.alone, still], others⟩

/-- Whatever tasks that have been stopped left in the directory, a call that has begun comes to
an answer without the help of others, however its actions are cut into pieces. -/
theorem registry_answers {store : Store} {disk : Disk String} (onDisk : store.OnDisk toml disk)
    (run : Trace (ExclusiveStep files toml) (start disk) history w) (exclusive : w.Exclusive)
    {task : ι} {call : RegistryCall} (begun : (w.phase task).current = some call)
    (sizes : Nat → Nat) :
    ∃ n w' answer, Trace (ExclusiveStep files toml) (start disk) history w' ∧
      (w'.disk, w'.phase task) = Phase.alone files toml sizes n (w.disk, w.phase task) ∧
      w'.phase task = .answered call (some answer) ∧
      ∀ other, other ≠ task → w'.phase other = w.phase other := by
  obtain ⟨a, -, related⟩ := related_of_run onDisk run
  obtain ⟨n, answer, answered⟩ :=
    Phase.alone_answers related.onDisk (related.reached task) begun sizes
  obtain ⟨w', run', -, now, others⟩ := trace_alone run exclusive task sizes n
  exact ⟨n, w', answer, run', now, by rw [← answered, ← now], others⟩

end RegistryWorld

/-! ## A registry with one model -/

namespace Fixture

local instance countableChar : Countable Char :=
  Function.Injective.countable (f := Char.toNat) fun _ _ same => Char.toNat_inj.mp same

local instance countableString : Countable String :=
  Function.Injective.countable (f := String.toList) fun _ _ same => String.toList_inj.mp same

deriving instance Countable for ModelKind
deriving instance Countable for ModelFormat
deriving instance Countable for ModelManifest

/-- One file of weights. -/
def files : Files where
  contents path := if path = "/fixture.gguf" then some ("weights".toList.map Char.toUInt8) else none
  canonicalize path := path
  sha256 _ := "9a129038d9a00aed0cf6a7ea059ca50a813449061ab87848cf1a13eafdf33b2c"
  contents_canonicalize _ := rfl

def manifest : ModelManifest where
  id := "fixture"
  kind := .generator
  format := .gguf
  weights := "/fixture.gguf"
  sha256 := "9a129038d9a00aed0cf6a7ea059ca50a813449061ab87848cf1a13eafdf33b2c"
  tokenizer := none
  tokenizerSha256 := none
  architecture := none
  contextLength := none
  chatTemplate := none

/-- The lines of the manifest. -/
def text : List UInt8 :=
  'i'.toUInt8 :: ("d = \"fixture\"\nkind = \"generator\"\nformat = \"gguf\"\n" ++
    "weights = \"/fixture.gguf\"\n" ++
    "sha256 = \"9a129038d9a00aed0cf6a7ea059ca50a813449061ab87848cf1a13eafdf33b2c\"\n").toList.map
      Char.toUInt8

/-- A number that tells a manifest from the others. -/
noncomputable def code : ModelManifest → Nat := (exists_injective_nat ModelManifest).choose

noncomputable def write (other : ModelManifest) : List UInt8 :=
  if other = manifest then text else List.replicate (code other) 0

theorem write_injective : Function.Injective write := by
  have different : ∀ n, List.replicate n 0 ≠ text := by
    rintro (_ | n) same
    · exact absurd same (List.cons_ne_nil _ _).symm
    · exact absurd (List.cons.inj same).1 (by decide)
  intro one other same
  simp only [write] at same
  split at same <;> split at same
  next left right => exact left.trans right.symm
  next => exact absurd same.symm (different _)
  next => exact absurd same (different _)
  next =>
    exact (exists_injective_nat ModelManifest).choose_spec (List.replicate_left_injective 0 same)

/-- The text of the manifest, and zeros for the others. -/
noncomputable def toml : Toml where
  toStringPretty := write
  fromStr := Function.partialInv write
  fromStr_toStringPretty := Function.partialInv_left write_injective

theorem toml_manifest : toml.toStringPretty manifest = text := by simp only [toml, write, if_true]

def importCall : RegistryCall := .importLocal "fixture" "/fixture.gguf" .generator none none none

def empty : Disk String where
  entry _ := none
  data _ := []
  next := 0
  entry_lt here := by simp at here
  distinct _ _ _ here := by simp at here

theorem onDisk_empty : Store.OnDisk toml (fun _ => none) empty := fun _ _ => rfl

theorem prepare_importCall : importCall.prepare files = .ok (some manifest) := by
  decide

theorem exclusive_of_idle {w : RegistryWorld Bool} (task : Bool)
    (idle : (w.phase task).current = none) : w.Exclusive := by
  intro one other call call' apart here here'
  have both : one = task ∨ other = task := by
    cases one <;> cases other <;> cases task <;> simp_all
  rcases both with rfl | rfl
  · simp [idle] at here
  · simp [idle] at here'

theorem advance_writing_all {call : RegistryCall} {manifest : ModelManifest} {file offset : Nat}
    {bytes : List UInt8} (disk : Disk String) (filled : bytes ≠ []) :
    (Phase.writing call manifest file offset bytes).advance files toml bytes.length disk =
      (disk.write file offset bytes, .writing call manifest file (offset + bytes.length) []) := by
  cases bytes with
  | nil => exact absurd rfl filled
  | cons byte rest =>
      have all : rest.take (rest.length + 1) = rest := List.take_of_length_le (Nat.le_succ _)
      simp [Phase.advance, all, Nat.add_assoc]

/-- An import that is not stopped. -/
theorem alone_importCall (disk : Disk String) :
    (Phase.alone files toml (fun _ => text.length) 4 (disk, .called importCall)).2 =
      .answered importCall (some (.ok manifest)) := by
  have composed : (Phase.called importCall).advance files toml text.length disk =
      (disk, .replacing importCall manifest) := by
    simp only [Phase.advance, prepare_importCall]
  obtain ⟨file, disk', created, named⟩ : ∃ file disk',
      disk.create (temporaryPath importCall.id) = (file, disk') ∧
        disk'.entry (temporaryPath importCall.id) = some file :=
    ⟨_, _, rfl, disk.create_entry _⟩
  have opened : (Phase.replacing importCall manifest).advance files toml text.length disk =
      (disk', .writing importCall manifest file 0 text) := by
    simp only [Phase.advance, created, toml_manifest]
  have written : (Phase.writing importCall manifest file 0 text).advance files toml text.length
      disk' = (disk'.write file 0 text, .writing importCall manifest file (0 + text.length) []) :=
    advance_writing_all disk' (List.cons_ne_nil _ _)
  have kept : (disk'.write file 0 text).entry (temporaryPath importCall.id) = some file := named
  obtain ⟨disk'', renamed⟩ := Disk.rename_isSome kept (manifestPath importCall.id)
  have answered : (Phase.writing importCall manifest file (0 + text.length) []).advance files toml
      text.length (disk'.write file 0 text) =
        (disk'', .answered importCall (some (.ok manifest))) := by
    simp only [Phase.advance, renamed]
  simp only [Phase.alone, composed, opened, written, answered]

/-- The import of one task is stopped when its file has been created, and another task calls for
the same. -/
theorem exists_stopped : ∃ w, Trace (RegistryWorld.ExclusiveStep files toml) (.start empty)
    [.call false importCall, .call true importCall] w ∧ w.phase false = .ended ∧
      w.phase true = .called importCall := by
  have started : Trace (RegistryWorld.ExclusiveStep files toml) (.start empty)
      [] (.start empty : RegistryWorld Bool) := .refl _
  have called := started.visible ⟨exclusive_of_idle true rfl, .call _ false importCall rfl⟩
  have composed := called.silent ⟨exclusive_of_idle true rfl, .advance _ false 0 rfl⟩
  have created := composed.silent ⟨exclusive_of_idle true rfl, .advance _ false 0 rfl⟩
  have stopped := created.silent ⟨exclusive_of_idle true rfl, .stop _ false (by nofun)⟩
  have again := stopped.visible ⟨exclusive_of_idle true rfl, .call _ true importCall rfl⟩
  exact ⟨_, again, rfl, rfl⟩

/-- The second import goes on to its end. -/
theorem exists_returned : ∃ w, Trace (RegistryWorld.ExclusiveStep files toml) (.start empty)
    [.call false importCall, .call true importCall, .ret true (some (.ok manifest))] w ∧
      w.phase true = .ended := by
  obtain ⟨w, run, ended, called⟩ := exists_stopped
  have idle : (w.phase false).current = none := by rw [ended]; rfl
  obtain ⟨w', run', exclusive, now, _⟩ :=
    RegistryWorld.trace_alone run (exclusive_of_idle false idle) true (fun _ => text.length) 4
  have answered : w'.phase true = .answered importCall (some (.ok manifest)) := by
    rw [← alone_importCall w.disk, ← called, ← now]
  refine ⟨_, run'.visible ⟨exclusive, .ret w' true importCall _ answered⟩, ?_⟩
  rfl

end Fixture

namespace RegistryWorld

open Fixture

theorem registry_linearizes_afterStop :
    ∃ w : RegistryWorld Bool, w.phase true = .ended ∧ ∃ order store',
      Linearizes (RegistryCall.serve files) (fun _ => none)
        [.call false importCall, .call true importCall, .ret true (some (.ok manifest))]
        order store' ∧ store'.OnDisk toml w.disk := by
  obtain ⟨w, run, ended⟩ := exists_returned
  exact ⟨w, ended, registry_linearizes onDisk_empty run⟩

theorem registry_answers_afterStop :
    ∃ w : RegistryWorld Bool, w.phase false = .ended ∧ w.phase true = .called importCall ∧
      ∃ n w' answer, Trace (ExclusiveStep files toml) (start empty)
          [.call false importCall, .call true importCall] w' ∧
        (w'.disk, w'.phase true) = Phase.alone files toml id n (w.disk, w.phase true) ∧
        w'.phase true = .answered importCall (some answer) ∧
        ∀ other, other ≠ true → w'.phase other = w.phase other := by
  obtain ⟨w, run, ended, called⟩ := exists_stopped
  have idle : (w.phase false).current = none := by rw [ended]; rfl
  have begun : (w.phase true).current = some importCall := by rw [called]; rfl
  exact ⟨w, ended, called,
    registry_answers onDisk_empty run (exclusive_of_idle false idle) begun id⟩

end RegistryWorld

end AiCoreStack.Serving
