import AiCoreStack.Foundation.Outcome
import AiCoreStack.Serving.Generation

/-!
# The model registry

Model of `registry.rs`.  A registry is a directory of manifests, one for each model
identifier, so a `Store` is a partial map from identifiers to manifests.  Weights
and tokenizers are files outside the registry; they are read and hashed, never
written.
-/

namespace AiCoreStack.Serving

open Foundation

inductive ModelKind where
  | generator
  | embedding
  deriving DecidableEq, Repr

inductive ModelFormat where
  | gguf
  | safetensors
  deriving DecidableEq, Repr

structure ModelManifest where
  id : String
  kind : ModelKind
  format : ModelFormat
  weights : String
  sha256 : String
  tokenizer : Option String
  tokenizerSha256 : Option String
  architecture : Option String
  contextLength : Option UInt32
  chatTemplate : Option String
  deriving DecidableEq, Repr

/-- The files of the machine, and the hash that identifies their contents. -/
structure Files where
  contents : String → Option (List UInt8)
  canonicalize : String → String
  sha256 : List UInt8 → String
  contents_canonicalize : ∀ path, contents (canonicalize path) = contents path

namespace Files

variable (files : Files)

def isFile (path : String) : Bool := (files.contents path).isSome

def sha256File (path : String) : Except EngineError String :=
  match files.contents path with
  | some bytes => .ok (files.sha256 bytes)
  | none => .error (.io path)

end Files

/-- The manifests of one registry root. -/
abbrev Store := String → Option ModelManifest

def validateModelId (id : String) : Except EngineError Unit :=
  if id.isEmpty || !id.toList.all fun c => c.isAlphanum || c == '-' || c == '_' then
    .error (.invalidModelId id)
  else .ok ()

/-- `Path::extension`: what follows the last dot of the file name, unless the dot
starts the name. -/
def extension (path : String) : Option String :=
  let name := (path.toList.reverse.takeWhile (· ≠ '/')).reverse
  let ending := (name.reverse.takeWhile (· ≠ '.')).reverse
  if ending.length + 1 < name.length then some (String.ofList ending) else none

def formatFromPath (path : String) : Except EngineError ModelFormat :=
  match extension path with
  | some "gguf" => .ok .gguf
  | some "safetensors" => .ok .safetensors
  | _ => .error (.unsupportedFormat path)

namespace Store

variable (files : Files) (store : Store)

def importLocal (id weights : String) (kind : ModelKind) (architecture : Option String)
    (contextLength : Option UInt32) (chatTemplate : Option String) :
    Except EngineError (ModelManifest × Store) :=
  (validateModelId id).bind fun _ =>
    if files.isFile weights then
      (formatFromPath weights).bind fun format =>
        (files.sha256File weights).map fun sha256 =>
          let manifest : ModelManifest :=
            { id := id
              kind := kind
              format := format
              weights := files.canonicalize weights
              sha256 := sha256
              tokenizer := none
              tokenizerSha256 := none
              architecture := architecture
              contextLength := contextLength
              chatTemplate := chatTemplate }
          (manifest, Function.update store id (some manifest))
    else .error (.modelFileNotFound weights)

def get (id : String) : Except EngineError ModelManifest :=
  (validateModelId id).bind fun _ =>
    match store id with
    | some manifest => .ok manifest
    | none => .error (.modelNotFound id)

/-- Associate a tokenizer file with a model. -/
def attachTokenizer (id tokenizer : String) : Except EngineError (ModelManifest × Store) :=
  if files.isFile tokenizer then
    (store.get id).bind fun manifest =>
      (files.sha256File tokenizer).map fun sha256 =>
        let manifest : ModelManifest :=
          { manifest with
            tokenizer := some (files.canonicalize tokenizer)
            tokenizerSha256 := some sha256 }
        (manifest, Function.update store id (some manifest))
  else .error (.modelFileNotFound tokenizer)

/-- Compare the hash of a file with the one in the manifest. -/
def verifyFile (id path expected : String) : Except EngineError Unit :=
  if files.isFile path then
    (files.sha256File path).bind fun actual =>
      if actual = expected then .ok () else .error (.integrityMismatch id expected actual)
  else .error (.modelFileNotFound path)

def verify (id : String) : Except EngineError ModelManifest :=
  (store.get id).bind fun manifest =>
    (verifyFile files manifest.id manifest.weights manifest.sha256).bind fun _ =>
      match manifest.tokenizer, manifest.tokenizerSha256 with
      | some tokenizer, some expected =>
          (verifyFile files (manifest.id ++ " tokenizer") tokenizer expected).map fun _ => manifest
      | _, _ => .ok manifest

end Store

/-! ## What a verified manifest says -/

/-- A file whose contents have the given hash. -/
def Files.HasHash (files : Files) (path hash : String) : Prop :=
  ∃ bytes, files.contents path = some bytes ∧ files.sha256 bytes = hash

theorem verifyFile_ok {files : Files} {id path expected : String}
    (verified : Store.verifyFile files id path expected = .ok ()) :
    files.HasHash path expected := by
  simp only [Store.verifyFile] at verified
  split at verified
  next =>
    obtain ⟨actual, hashed, same⟩ := bind_ok_iff.mp verified
    simp only [Files.sha256File] at hashed
    split at hashed
    next bytes found =>
      split at same
      next equal => exact ⟨bytes, found, (Except.ok.inj hashed).trans equal⟩
      next => simp at same
    next => simp at hashed
  next => simp at verified

/-- A verified manifest is the registered one, and its weights have its hash. -/
theorem verify_ok {files : Files} {store : Store} {id : String} {manifest : ModelManifest}
    (verified : store.verify files id = .ok manifest) :
    store.get id = .ok manifest ∧ files.HasHash manifest.weights manifest.sha256 := by
  obtain ⟨registered, found, rest⟩ := bind_ok_iff.mp verified
  obtain ⟨_, checked, rest⟩ := bind_ok_iff.mp rest
  have same : registered = manifest := by
    split at rest
    next =>
      obtain ⟨_, _, same⟩ := map_ok_iff.mp rest
      exact same
    next => exact Except.ok.inj rest
  subst same
  exact ⟨found, verifyFile_ok checked⟩

theorem validateModelId_ok {id : String} (valid : validateModelId id = .ok ()) :
    '@' ∉ id.toList := by
  intro inside
  simp only [validateModelId] at valid
  split at valid
  next => simp at valid
  next accepted =>
    simp only [Bool.or_eq_true, Bool.not_eq_true', not_or, Bool.not_eq_false] at accepted
    exact absurd (List.all_eq_true.mp accepted.2 '@' inside) (by decide)

theorem get_ok {store : Store} {id : String} {manifest : ModelManifest}
    (found : store.get id = .ok manifest) :
    validateModelId id = .ok () ∧ store id = some manifest := by
  obtain ⟨_, valid, rest⟩ := bind_ok_iff.mp found
  split at rest
  next registered stored =>
    rw [Except.ok.inj rest] at stored
    exact ⟨valid, stored⟩
  next => simp at rest

/-- The hash of a manifest is the hash of its weights. -/
def ModelManifest.Hashed (files : Files) (manifest : ModelManifest) : Prop :=
  files.HasHash manifest.weights manifest.sha256

/-- Every manifest of a store has the hash of its weights. -/
def Store.Hashed (files : Files) (store : Store) : Prop :=
  ∀ id manifest, store id = some manifest → manifest.Hashed files

theorem Store.Hashed.update {files : Files} {store : Store} {id : String}
    {manifest : ModelManifest} (hashed : store.Hashed files) (fresh : manifest.Hashed files) :
    Store.Hashed files (Function.update store id (some manifest)) := by
  intro other registered found
  by_cases same : other = id
  · subst same
    rw [Function.update_self] at found
    rw [← Option.some.inj found]
    exact fresh
  · rw [Function.update_of_ne same] at found
    exact hashed other registered found

theorem importLocal_hashed {files : Files} {store : Store} {id weights : String} {kind : ModelKind}
    {architecture : Option String} {contextLength : Option UInt32} {chatTemplate : Option String}
    {manifest : ModelManifest} {store' : Store} (hashed : store.Hashed files)
    (imported : store.importLocal files id weights kind architecture contextLength chatTemplate =
      .ok (manifest, store')) :
    store'.Hashed files := by
  obtain ⟨_, _, rest⟩ := bind_ok_iff.mp imported
  split at rest
  next =>
    obtain ⟨format, _, rest⟩ := bind_ok_iff.mp rest
    obtain ⟨sha256, read, pair⟩ := map_ok_iff.mp rest
    obtain ⟨rfl, rfl⟩ := Prod.mk.inj pair
    apply hashed.update
    simp only [Files.sha256File] at read
    split at read
    next bytes found =>
      exact ⟨bytes, (files.contents_canonicalize weights).trans found, Except.ok.inj read⟩
    next => simp at read
  next => simp at rest

theorem attachTokenizer_hashed {files : Files} {store : Store} {id tokenizer : String}
    {manifest : ModelManifest} {store' : Store} (hashed : store.Hashed files)
    (attached : store.attachTokenizer files id tokenizer = .ok (manifest, store')) :
    store'.Hashed files := by
  simp only [Store.attachTokenizer] at attached
  split at attached
  next =>
    obtain ⟨registered, found, rest⟩ := bind_ok_iff.mp attached
    obtain ⟨sha256, _, pair⟩ := map_ok_iff.mp rest
    obtain ⟨rfl, rfl⟩ := Prod.mk.inj pair
    apply hashed.update
    exact hashed id registered (get_ok found).2
  next => simp at attached

end AiCoreStack.Serving
