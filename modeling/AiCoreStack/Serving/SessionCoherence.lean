import AiCoreStack.Serving.Session

/-!
# What a cached session reflects

Every session in the cache was loaded by a call of the history, for the key it is
stored under and after the last `clear`.  So a session that `get_or_load` hands out
has the weights that are registered at that moment.  Its architecture, tokenizer
and template are those registered when it was loaded.
-/

namespace AiCoreStack.Serving

open Foundation

theorem takeWhile_sessionKey {id : String} (device : DevicePreference)
    (valid : validateModelId id = .ok ()) :
    (sessionKey id device).toList.takeWhile (· ≠ '@') = id.toList := by
  have free : ∀ c ∈ id.toList, decide (c ≠ '@') = true := by
    intro c member
    rw [decide_eq_true_eq]
    intro same
    exact validateModelId_ok valid (same ▸ member)
  simp only [sessionKey, String.toList_append, List.append_assoc,
    List.takeWhile_append_of_pos free]
  simp

/-- Valid identifiers hold no `@`, so a key names its model and its device. -/
theorem sessionKey_inj {id id' : String} {device device' : DevicePreference}
    (valid : validateModelId id = .ok ()) (valid' : validateModelId id' = .ok ())
    (same : sessionKey id device = sessionKey id' device') : id = id' ∧ device = device' := by
  have letters : id.toList = id'.toList := by
    rw [← takeWhile_sessionKey device valid, same, takeWhile_sessionKey device' valid']
  have ids := String.toList_inj.mp letters
  subst ids
  have names : device.debug = device'.debug := by
    have tails := congrArg String.toList same
    simp only [sessionKey, String.toList_append, List.append_cancel_left_eq] at tails
    exact String.toList_inj.mp tails
  constructor
  · rfl
  · revert names
    cases device <;> cases device' <;> decide

section

variable {Dec Tok : Type} {machine : Machine Dec Tok}

/-- What a call that succeeds has done. -/
theorem getOrLoad_ok {cache cache' : SessionCache Dec Tok} {store : Store} {id : String}
    {device : DevicePreference} {session : ModelSession Dec Tok}
    (answered : cache.getOrLoad machine store id device = .ok (session, cache')) :
    ∃ manifest, store.get id = .ok manifest ∧
      ((cache.lookup id device manifest = some session ∧ cache' = cache) ∨
        (cache.lookup id device manifest = none ∧ manifest.Hashed machine.files ∧
          (∃ runtime, machine.select device = .ok runtime ∧
            machine.load manifest runtime = .ok session) ∧
          cache' =
            Function.update cache (sessionKey id device) (some ⟨manifest.sha256, session⟩))) := by
  obtain ⟨manifest, found, rest⟩ := bind_ok_iff.mp answered
  apply Exists.intro manifest
  constructor
  · exact found
  · split at rest
    next cached hit =>
      obtain ⟨rfl, rfl⟩ := Prod.mk.inj (Except.ok.inj rest)
      exact .inl ⟨hit, rfl⟩
    next miss =>
      obtain ⟨verified, checked, rest⟩ := bind_ok_iff.mp rest
      obtain ⟨runtime, selected, rest⟩ := bind_ok_iff.mp rest
      obtain ⟨loaded, load, pair⟩ := map_ok_iff.mp rest
      obtain ⟨rfl, rfl⟩ := Prod.mk.inj pair
      obtain ⟨again, hashed⟩ := verify_ok checked
      have same : manifest = verified := Except.ok.inj (found.symm.trans again)
      subst same
      exact .inr ⟨miss, hashed, ⟨runtime, selected, load⟩, rfl⟩

theorem lookup_eq_some {cache : SessionCache Dec Tok} {id : String} {device : DevicePreference}
    {manifest : ModelManifest} {session : ModelSession Dec Tok}
    (hit : cache.lookup id device manifest = some session) :
    ∃ cached, cache (sessionKey id device) = some cached ∧ cached.sha256 = manifest.sha256 ∧
      cached.session = session := by
  simp only [SessionCache.lookup, Option.map_eq_some_iff, Option.filter_eq_some_iff,
    decide_eq_true_eq] at hit
  obtain ⟨cached, ⟨found, same⟩, rfl⟩ := hit
  exact ⟨cached, found, same, rfl⟩

/-! ## Origins -/

/-- A call of the history, with no `clear` after it, loaded the session from this
manifest. -/
def Loaded (machine : Machine Dec Tok) (start : Server Dec Tok) (history : List Request)
    (id : String) (device : DevicePreference) (origin : ModelManifest)
    (session : ModelSession Dec Tok) : Prop :=
  ∃ before root after, history = before ++ .getOrLoad root id device :: after ∧
    Request.clear ∉ after ∧ ((start.serve machine before).stores root).get id = .ok origin ∧
    origin.Hashed machine.files ∧
    ∃ runtime, machine.select device = .ok runtime ∧ machine.load origin runtime = .ok session

theorem Loaded.extend {start : Server Dec Tok} {history : List Request} {id : String}
    {device : DevicePreference} {origin : ModelManifest} {session : ModelSession Dec Tok}
    {request : Request} (loaded : Loaded machine start history id device origin session)
    (kept : request ≠ .clear) :
    Loaded machine start (history ++ [request]) id device origin session := by
  obtain ⟨before, root, after, rfl, uncleared, rest⟩ := loaded
  refine ⟨before, root, after ++ [request], by simp, ?_, rest⟩
  intro cleared
  rcases List.mem_append.mp cleared with earlier | last
  · exact uncleared earlier
  · exact kept (List.mem_singleton.mp last).symm

/-- Every cached session has an origin with the hash it is stored with. -/
def Coherent (machine : Machine Dec Tok) (start : Server Dec Tok) (history : List Request)
    (cache : SessionCache Dec Tok) : Prop :=
  ∀ key cached, cache key = some cached →
    ∃ id device origin, key = sessionKey id device ∧ validateModelId id = .ok () ∧
      Loaded machine start history id device origin cached.session ∧
      origin.sha256 = cached.sha256

theorem Coherent.extend {start : Server Dec Tok} {history : List Request}
    {cache : SessionCache Dec Tok} {request : Request}
    (coherent : Coherent machine start history cache) (kept : request ≠ .clear) :
    Coherent machine start (history ++ [request]) cache := by
  intro key cached found
  obtain ⟨id, device, origin, name, valid, loaded, hash⟩ := coherent key cached found
  exact ⟨id, device, origin, name, valid, loaded.extend kept, hash⟩

/-- The origin of a session that a call hands out: the present manifest after a load,
that of the cached session otherwise. -/
theorem Coherent.exists_origin {start : Server Dec Tok} {history : List Request}
    {cache cache' : SessionCache Dec Tok} {root id : String} {device : DevicePreference}
    {session : ModelSession Dec Tok} {manifest : ModelManifest}
    (coherent : Coherent machine start history cache)
    (found : ((start.serve machine history).stores root).get id = .ok manifest)
    (answered : cache.getOrLoad machine ((start.serve machine history).stores root) id device =
      .ok (session, cache')) :
    ∃ origin, Loaded machine start (history ++ [.getOrLoad root id device]) id device origin
        session ∧
      origin.sha256 = manifest.sha256 ∧
      (cache.lookup id device manifest = none → origin = manifest) := by
  obtain ⟨registered, again, hit | miss⟩ := getOrLoad_ok answered
  · have same : manifest = registered := Except.ok.inj (found.symm.trans again)
    subst same
    obtain ⟨cached, stored, hash, rfl⟩ := lookup_eq_some hit.1
    obtain ⟨owner, place, origin, name, valid, loaded, originHash⟩ := coherent _ cached stored
    obtain ⟨rfl, rfl⟩ := sessionKey_inj (get_ok found).1 valid name
    refine ⟨origin, loaded.extend (by simp), originHash.trans hash, ?_⟩
    intro missed
    rw [hit.1] at missed
    simp at missed
  · have same : manifest = registered := Except.ok.inj (found.symm.trans again)
    subst same
    exact ⟨manifest, ⟨history, root, [], rfl, by simp, found, miss.2.1, miss.2.2.1⟩, rfl,
      fun _ => rfl⟩

/-- Along every history the cache stays coherent. -/
theorem serve_coherent (machine : Machine Dec Tok) {start : Server Dec Tok}
    (fresh : start.cache = SessionCache.new) (history : List Request) :
    Coherent machine start history (start.serve machine history).cache := by
  induction history using List.reverseRecOn with
  | nil =>
      intro key cached found
      simp [Server.serve, fresh, SessionCache.new] at found
  | append_singleton history request ih =>
      rw [Server.serve_append, Server.serve_single]
      cases request with
      | importLocal root id weights kind architecture contextLength chatTemplate =>
          have frame : ((start.serve machine history).step machine (.importLocal root id weights
              kind architecture contextLength chatTemplate)).cache =
                (start.serve machine history).cache := by
            simp only [Server.step]
            split <;> rfl
          rw [frame]
          exact ih.extend (by simp)
      | attachTokenizer root id tokenizer =>
          have frame : ((start.serve machine history).step machine
              (.attachTokenizer root id tokenizer)).cache =
                (start.serve machine history).cache := by
            simp only [Server.step]
            split <;> rfl
          rw [frame]
          exact ih.extend (by simp)
      | clear =>
          intro key cached found
          simp [Server.step, SessionCache.new] at found
      | getOrLoad root id device =>
          simp only [Server.step]
          split
          next session cache' answered =>
            obtain ⟨manifest, found, hit | miss⟩ := getOrLoad_ok answered
            · rw [hit.2]
              exact ih.extend (by simp)
            · obtain ⟨origin, loaded, hash, present⟩ := ih.exists_origin found answered
              intro key cached stored
              rw [miss.2.2.2] at stored
              by_cases own : key = sessionKey id device
              · subst own
                simp only [Function.update_self, Option.some.injEq] at stored
                subst stored
                exact ⟨id, device, origin, rfl, (get_ok found).1, loaded, hash⟩
              · simp only [Function.update_of_ne own] at stored
                exact ih.extend (by simp) key cached stored
          next => exact ih.extend (by simp)

/-! ## Hashes and contents -/

theorem step_hashed {server : Server Dec Tok}
    (hashed : ∀ root, (server.stores root).Hashed machine.files) (request : Request) (root : String) :
    ((server.step machine request).stores root).Hashed machine.files := by
  have update {place : String} {store : Store} (fresh : store.Hashed machine.files) :
      ((server.withStore place store).stores root).Hashed machine.files := by
    simp only [Server.withStore]
    by_cases own : root = place
    · rw [own, Function.update_self]
      exact fresh
    · rw [Function.update_of_ne own]
      exact hashed root
  cases request with
  | importLocal place id weights kind architecture contextLength chatTemplate =>
      simp only [Server.step]
      split
      next imported => exact update (importLocal_hashed (hashed place) imported)
      next => exact hashed root
  | attachTokenizer place id tokenizer =>
      simp only [Server.step]
      split
      next attached => exact update (attachTokenizer_hashed (hashed place) attached)
      next => exact hashed root
  | getOrLoad place id device =>
      simp only [Server.step]
      split <;> exact hashed root
  | clear => exact hashed root

theorem serve_hashed {start : Server Dec Tok}
    (hashed : ∀ root, (start.stores root).Hashed machine.files) (history : List Request)
    (root : String) : ((start.serve machine history).stores root).Hashed machine.files := by
  induction history using List.reverseRecOn generalizing root with
  | nil => exact hashed root
  | append_singleton history request ih =>
      rw [Server.serve_append, Server.serve_single]
      exact step_hashed ih request root

/-- No two files have one hash and different contents. -/
def Files.CollisionFree (files : Files) : Prop :=
  ∀ path path' hash, files.HasHash path hash → files.HasHash path' hash →
    files.contents path = files.contents path'

/-- Two manifests with the same bundle around their weights. -/
structure SameBundle (left right : ModelManifest) : Prop where
  format : left.format = right.format
  architecture : left.architecture = right.architecture
  tokenizer : left.tokenizer = right.tokenizer
  chatTemplate : left.chatTemplate = right.chatTemplate

/-- A load reads the bytes of the weights and the bundle, nothing else. -/
theorem load_congr {left right : ModelManifest} {runtime : RuntimeDevice} {bytes : List UInt8}
    (weights : machine.files.contents left.weights = some bytes)
    (weights' : machine.files.contents right.weights = some bytes)
    (bundle : SameBundle left right) : machine.load left runtime = machine.load right runtime := by
  have decoder (architecture : String) :
      machine.loadGgufDecoder architecture left.weights runtime =
        machine.loadGgufDecoder architecture right.weights runtime := by
    simp only [Machine.loadGgufDecoder, Machine.read, weights, weights']
  simp only [Machine.load, bundle.format, bundle.architecture, bundle.tokenizer,
    bundle.chatTemplate, decoder]

/-- A session that `get_or_load` returns, after any history that starts with an empty
cache: its origin is a manifest that an earlier call or this one found under the same
identifier, on the same device and since the last `clear`.  The weights are always the
registered ones.  The session is what a load would give now whenever the bundle of the
manifest has not changed since. -/
theorem getOrLoad_reflects (machine : Machine Dec Tok) (start : Server Dec Tok)
    (fresh : start.cache = SessionCache.new)
    (hashed : ∀ root, (start.stores root).Hashed machine.files) (history : List Request)
    (root id : String) (device : DevicePreference) (session : ModelSession Dec Tok)
    (cache : SessionCache Dec Tok)
    (answered : (start.serve machine history).cache.getOrLoad machine
      ((start.serve machine history).stores root) id device = .ok (session, cache)) :
    ∃ manifest origin, ((start.serve machine history).stores root).get id = .ok manifest ∧
      Loaded machine start (history ++ [.getOrLoad root id device]) id device origin session ∧
      machine.files.HasHash origin.weights manifest.sha256 ∧
      machine.files.HasHash manifest.weights manifest.sha256 ∧
      ((start.serve machine history).cache.lookup id device manifest = none → origin = manifest) ∧
      (machine.files.CollisionFree → SameBundle origin manifest →
        ∃ runtime, machine.select device = .ok runtime ∧
          machine.load manifest runtime = .ok session) := by
  obtain ⟨manifest, found, _⟩ := getOrLoad_ok answered
  obtain ⟨origin, loaded, hash, present⟩ :=
    (serve_coherent machine fresh history).exists_origin found answered
  have originHashed : machine.files.HasHash origin.weights manifest.sha256 := by
    obtain ⟨_, _, _, _, _, _, originHashed, _⟩ := loaded
    rw [← hash]
    exact originHashed
  have manifestHashed := serve_hashed hashed history root id manifest (get_ok found).2
  refine ⟨manifest, origin, found, loaded, originHashed, manifestHashed, present, ?_⟩
  intro collisionFree bundle
  have same := collisionFree origin.weights manifest.weights manifest.sha256 originHashed
    manifestHashed
  obtain ⟨bytes, stored, _⟩ := manifestHashed
  obtain ⟨_, _, _, _, _, _, _, runtime, selected, load⟩ := loaded
  exact ⟨runtime, selected, (load_congr (same.trans stored) stored bundle).symm.trans load⟩

end

/-! ## A machine with one model and two tokenizers -/

/-- Decoders and tokenizers are the bytes they are read from. -/
def plainMachine : Machine (List UInt8) (List UInt8) where
  files :=
    { contents := fun path =>
        match path with
        | "/w.gguf" => some [1]
        | "/a.json" => some [2]
        | "/b.json" => some [3]
        | _ => none
      canonicalize := id
      sha256 := fun bytes => String.ofList (bytes.map fun b => Char.ofNat (b.toNat + 48))
      contents_canonicalize := fun _ => rfl }
  cuda := .error (.backendUnavailable "CUDA support was not compiled into this binary")
  metal := .error (.backendUnavailable "Metal support was not compiled into this binary")
  llama := fun bytes _ => .ok bytes
  qwen3 := fun bytes _ => .ok bytes
  eosToken := fun _ => none
  tokenizer := .ok

def emptyServer : Server (List UInt8) (List UInt8) where
  stores := fun _ _ => none
  cache := SessionCache.new

/-- A model, its first tokenizer and a load. -/
def firstLoad : List Request :=
  [.importLocal "/models" "m" "/w.gguf" .generator (some "qwen3") none none,
    .attachTokenizer "/models" "m" "/a.json", .getOrLoad "/models" "m" .cpu]

theorem getOrLoad_reflects_first_load :
    ∃ session manifest origin,
      ((emptyServer.serve plainMachine firstLoad).stores "/models").get "m" = .ok manifest ∧
      Loaded plainMachine emptyServer (firstLoad ++ [.getOrLoad "/models" "m" .cpu]) "m" .cpu
        origin session ∧
      plainMachine.files.HasHash origin.weights manifest.sha256 := by
  cases answered : (emptyServer.serve plainMachine firstLoad).cache.getOrLoad plainMachine
      ((emptyServer.serve plainMachine firstLoad).stores "/models") "m" .cpu with
  | error error =>
      have loads : ((emptyServer.serve plainMachine firstLoad).cache.getOrLoad plainMachine
          ((emptyServer.serve plainMachine firstLoad).stores "/models") "m" .cpu).toOption.isSome =
            true := by decide +kernel
      simp [answered, Except.toOption] at loads
  | ok answer =>
      obtain ⟨manifest, origin, found, loaded, hash, _⟩ :=
        getOrLoad_reflects plainMachine emptyServer rfl (fun _ _ _ none => by simp [emptyServer] at none)
          firstLoad "/models" "m" .cpu answer.1 answer.2 answered
      exact ⟨answer.1, manifest, origin, found, loaded, hash⟩

/-- After another tokenizer is attached the cache still answers with the first one,
where a load would take the second. -/
theorem attached_tokenizer_ignored :
    let server := emptyServer.serve plainMachine
      (firstLoad ++ [.attachTokenizer "/models" "m" "/b.json"])
    ((server.cache.getOrLoad plainMachine (server.stores "/models") "m" .cpu).toOption.map
        Prod.fst = some ⟨[1], [2], none, some .chatMl⟩) ∧
      (((server.stores "/models").get "m").bind fun manifest =>
        plainMachine.load manifest .cpu).toOption = some ⟨[1], [3], none, some .chatMl⟩ := by
  decide +kernel

end AiCoreStack.Serving
