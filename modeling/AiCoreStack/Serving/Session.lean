import AiCoreStack.Serving.Registry

/-!
# Sessions and their cache

Model of `session.rs`.  A session is a decoder with its tokenizer and template.
The cache hands out a session again while the hash of the registered weights stays
what it was at the load.  A `Server` holds the stores of all registry roots and one
cache; it answers a sequence of requests.
-/

namespace AiCoreStack.Serving

open Foundation

inductive ChatTemplate where
  | chatMl
  | llama3
  | mistralInstruct
  deriving DecidableEq, Repr

namespace ChatTemplate

/-- The template with the given name. -/
def fromName (name : String) : Option ChatTemplate :=
  match name.toLower with
  | "chatml" => some .chatMl
  | "llama3" => some .llama3
  | "mistral" | "llama2" => some .mistralInstruct
  | _ => none

/-- The conventional template of an architecture. -/
def forArchitecture (architecture : String) : Option ChatTemplate :=
  match architecture.toLower with
  | "qwen3" | "qwen3-gguf" => some .chatMl
  | "llama3" => some .llama3
  | "llama" | "llama2" | "llama-gguf" | "mistral" | "mixtral" => some .mistralInstruct
  | _ => none

end ChatTemplate

inductive DevicePreference where
  | auto
  | cpu
  | cuda
  | metal
  deriving DecidableEq, Repr

/-- The device as `Debug` prints it. -/
def DevicePreference.debug : DevicePreference → String
  | .auto => "Auto"
  | .cpu => "Cpu"
  | .cuda => "Cuda"
  | .metal => "Metal"

inductive RuntimeDevice where
  | cpu
  | cuda
  | metal
  deriving DecidableEq, Repr

/-- One loaded model. -/
structure ModelSession (Dec Tok : Type) where
  decoder : Dec
  tokenizer : Tok
  eosToken : Option UInt32
  chatTemplate : Option ChatTemplate
  deriving DecidableEq, Repr

/-- The machine that models are loaded on: its files, its backends, and the readers
of weights and tokenizers. -/
structure Machine (Dec Tok : Type) where
  files : Files
  cuda : Except EngineError Unit
  metal : Except EngineError Unit
  llama : List UInt8 → RuntimeDevice → Except EngineError Dec
  qwen3 : List UInt8 → RuntimeDevice → Except EngineError Dec
  eosToken : Dec → Option UInt32
  tokenizer : List UInt8 → Except EngineError Tok

namespace Machine

variable {Dec Tok : Type} (machine : Machine Dec Tok)

/-- `RuntimeDevice::select`. -/
def select : DevicePreference → Except EngineError RuntimeDevice
  | .cpu => .ok .cpu
  | .cuda => machine.cuda.map fun _ => .cuda
  | .metal => machine.metal.map fun _ => .metal
  | .auto =>
      match machine.cuda, machine.metal with
      | .ok _, _ => .ok .cuda
      | .error _, .ok _ => .ok .metal
      | .error _, .error _ => .ok .cpu

def read (path : String) : Except EngineError (List UInt8) :=
  match machine.files.contents path with
  | some bytes => .ok bytes
  | none => .error (.io path)

/-- `LocalTokenizer::from_file`. -/
def tokenizerFromFile (path : String) : Except EngineError Tok :=
  (machine.read path).bind machine.tokenizer

def loadGgufDecoder (architecture weights : String) (runtime : RuntimeDevice) :
    Except EngineError Dec :=
  match architecture.toLower with
  | "llama" | "llama2" | "llama3" | "llama-gguf" | "mistral" | "mixtral" =>
      (machine.read weights).bind fun bytes => machine.llama bytes runtime
  | "qwen3" | "qwen3-gguf" => (machine.read weights).bind fun bytes => machine.qwen3 bytes runtime
  | "qwen" | "qwen2" | "qwen2.5" | "qwen2-gguf" =>
      .error (.unsupportedArchitecture
        "Qwen2 support was replaced by Qwen3; use a Qwen3 GGUF (architecture 'qwen3')")
  | "phi" | "phi2" | "phi3" | "phi4" =>
      .error (.unsupportedArchitecture ("Phi GGUF is not yet enabled because Candle's Phi " ++
        "variants do not expose a safe KV-cache reset API"))
  | other => .error (.unsupportedArchitecture other)

/-- `ModelSession::load`. -/
def load (manifest : ModelManifest) (runtime : RuntimeDevice) :
    Except EngineError (ModelSession Dec Tok) :=
  if manifest.format = .gguf then
    match manifest.architecture with
    | none =>
        .error (.unsupportedArchitecture "the registered model has no architecture metadata")
    | some architecture =>
        match manifest.tokenizer with
        | none =>
            .error (.modelFileNotFound
              "tokenizer.json is not attached; attach it before generating")
        | some tokenizerPath =>
            (machine.tokenizerFromFile tokenizerPath).bind fun tokenizer =>
              (machine.loadGgufDecoder architecture manifest.weights runtime).map fun decoder =>
                { decoder := decoder
                  tokenizer := tokenizer
                  eosToken := machine.eosToken decoder
                  chatTemplate :=
                    (manifest.chatTemplate.bind ChatTemplate.fromName).or
                      (ChatTemplate.forArchitecture architecture) }
  else .error (.unsupportedFormat "only GGUF model bundles are currently executable")

end Machine

/-! ## The cache -/

structure CachedSession (Dec Tok : Type) where
  sha256 : String
  session : ModelSession Dec Tok

/-- The sessions by key. -/
abbrev SessionCache (Dec Tok : Type) := String → Option (CachedSession Dec Tok)

/-- The key of a model on a device. -/
def sessionKey (id : String) (device : DevicePreference) : String := id ++ "@" ++ device.debug

namespace SessionCache

variable {Dec Tok : Type} (machine : Machine Dec Tok)

def new : SessionCache Dec Tok := fun _ => none

/-- The cached session of a manifest. -/
def lookup (cache : SessionCache Dec Tok) (id : String) (device : DevicePreference)
    (manifest : ModelManifest) : Option (ModelSession Dec Tok) :=
  ((cache (sessionKey id device)).filter (·.sha256 = manifest.sha256)).map (·.session)

def getOrLoad (cache : SessionCache Dec Tok) (store : Store) (id : String)
    (device : DevicePreference) :
    Except EngineError (ModelSession Dec Tok × SessionCache Dec Tok) :=
  (store.get id).bind fun manifest =>
    match cache.lookup id device manifest with
    | some session => .ok (session, cache)
    | none =>
        (store.verify machine.files id).bind fun manifest =>
          (machine.select device).bind fun runtime =>
            (machine.load manifest runtime).map fun session =>
              (session,
                Function.update cache (sessionKey id device) (some ⟨manifest.sha256, session⟩))

end SessionCache

/-! ## Requests -/

/-- The calls that change a registry or the cache. -/
inductive Request where
  | importLocal (root id weights : String) (kind : ModelKind) (architecture : Option String)
      (contextLength : Option UInt32) (chatTemplate : Option String)
  | attachTokenizer (root id tokenizer : String)
  | getOrLoad (root id : String) (device : DevicePreference)
  | clear
  deriving DecidableEq

/-- The registries by root, and the cache they share. -/
structure Server (Dec Tok : Type) where
  stores : String → Store
  cache : SessionCache Dec Tok

namespace Server

variable {Dec Tok : Type} (machine : Machine Dec Tok)

/-- Replace the store of one root. -/
def withStore (server : Server Dec Tok) (root : String) (store : Store) : Server Dec Tok :=
  { server with stores := Function.update server.stores root store }

/-- One request.  A request that fails changes nothing. -/
def step (server : Server Dec Tok) : Request → Server Dec Tok
  | .importLocal root id weights kind architecture contextLength chatTemplate =>
      match (server.stores root).importLocal machine.files id weights kind architecture
          contextLength chatTemplate with
      | .ok (_, store) => server.withStore root store
      | .error _ => server
  | .attachTokenizer root id tokenizer =>
      match (server.stores root).attachTokenizer machine.files id tokenizer with
      | .ok (_, store) => server.withStore root store
      | .error _ => server
  | .getOrLoad root id device =>
      match server.cache.getOrLoad machine (server.stores root) id device with
      | .ok (_, cache) => { server with cache := cache }
      | .error _ => server
  | .clear => { server with cache := SessionCache.new }

/-- A sequence of requests. -/
def serve (server : Server Dec Tok) (requests : List Request) : Server Dec Tok :=
  requests.foldl (step machine) server

@[simp] theorem serve_append (server : Server Dec Tok) (first second : List Request) :
    server.serve machine (first ++ second) = (server.serve machine first).serve machine second :=
  List.foldl_append

theorem serve_single (server : Server Dec Tok) (request : Request) :
    server.serve machine [request] = server.step machine request := rfl

end Server

end AiCoreStack.Serving
