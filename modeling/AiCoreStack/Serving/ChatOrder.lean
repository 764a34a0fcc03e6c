import AiCoreStack.Foundation.Outcome
import AiCoreStack.Foundation.Runs
import AiCoreStack.Serving.Chat

/-!
# What a chat prompt keeps

ChatML and Llama 3 keep all contents in their order.  The Mistral template carries a system message
to the next user turn: it is lost behind another system message or at the end, and it moves behind
an assistant turn that stands in between.
-/

namespace AiCoreStack.Serving

open Foundation

/-! ## Contents in order -/

section Carries

variable {α : Type}

/-- The pieces occur in a text one behind the other. -/
def Carries : List (List α) → List α → Prop
  | [], _ => True
  | piece :: rest, text => ∃ before after, text = before ++ piece ++ after ∧ Carries rest after

theorem Carries.behind {pieces : List (List α)} {text : List α} (carries : Carries pieces text)
    (front : List α) : Carries pieces (front ++ text) := by
  cases pieces with
  | nil => trivial
  | cons piece rest =>
      obtain ⟨before, after, rfl, later⟩ := carries
      refine ⟨front ++ before, after, ?_, later⟩
      simp only [List.append_assoc]

theorem Carries.before {pieces : List (List α)} {text : List α} (carries : Carries pieces text)
    (back : List α) : Carries pieces (text ++ back) := by
  induction pieces generalizing text with
  | nil => trivial
  | cons piece rest ih =>
      obtain ⟨before, after, rfl, later⟩ := carries
      refine ⟨before, after ++ back, ?_, ih later⟩
      simp only [List.append_assoc]

theorem Carries.cons {pieces : List (List α)} {text : List α} (carries : Carries pieces text)
    (piece : List α) : Carries (piece :: pieces) (piece ++ text) :=
  ⟨[], text, rfl, carries⟩

/-- A piece without letters is everywhere. -/
theorem carries_nil_cons {pieces : List (List α)} {text : List α} :
    Carries ([] :: pieces) text ↔ Carries pieces text := by
  constructor
  · rintro ⟨before, after, rfl, later⟩
    rw [List.append_nil]
    exact later.behind before
  · intro carries
    exact ⟨[], text, rfl, carries⟩

/-- Pieces in frames, one behind the other. -/
theorem carries_flatMap {ι : Type} (front piece back : ι → List α) (items : List ι)
    (tail : List α) :
    Carries (items.map piece)
      ((items.flatMap fun item => front item ++ piece item ++ back item) ++ tail) := by
  induction items with
  | nil => trivial
  | cons item rest ih =>
      refine ⟨front item, back item ++ ((rest.flatMap fun item =>
        front item ++ piece item ++ back item) ++ tail), ?_, ih.behind _⟩
      simp only [List.flatMap_cons, List.append_assoc]

end Carries

/-! ## The folding of system messages -/

section Folds

variable {α : Type}

/-- The next turn with a content is one of the user. -/
def ReachesUser : List (ChatMessage α) → Prop
  | [] => False
  | message :: rest => message.role = "user" ∨
      (message.role = "assistant" ∧ message.content = [] ∧ ReachesUser rest)

/-- Every system message with a content reaches a user turn before another content. -/
def Folds : List (ChatMessage α) → Prop
  | [] => True
  | message :: rest =>
      (message.role = "system" → message.content ≠ [] → ReachesUser rest) ∧ Folds rest

/-- What the Mistral template keeps of the contents, behind a pending system message. -/
def keptContents : List α → List (ChatMessage α) → List α
  | _, [] => []
  | pendingSystem, message :: rest =>
      if message.role = "system" then keptContents message.content rest
      else if message.role = "user" then
        pendingSystem ++ message.content ++ keptContents [] rest
      else message.content ++ keptContents pendingSystem rest

/-- The roles that the Mistral template knows. -/
def KnownRoles (messages : List (ChatMessage α)) : Prop :=
  ∀ message ∈ messages, message.role = "system" ∨ message.role = "user" ∨
    message.role = "assistant"

theorem length_keptContents_le (pendingSystem : List α) (messages : List (ChatMessage α)) :
    (keptContents pendingSystem messages).length ≤
      pendingSystem.length + (messages.map ChatMessage.content).flatten.length := by
  induction messages generalizing pendingSystem with
  | nil => simp [keptContents]
  | cons message rest ih =>
      rw [keptContents]
      simp only [List.map_cons, List.flatten_cons, List.length_append]
      split_ifs
      · have := ih message.content
        omega
      · have := ih []
        simp only [List.length_append, List.length_nil] at this ⊢
        omega
      · have := ih pendingSystem
        rw [List.length_append]
        omega

/-- If the contents have no letter in common, then the template keeps all of them in their order
exactly if every system message folds. -/
theorem keptContents_eq_iff {messages : List (ChatMessage α)} (known : KnownRoles messages)
    {pendingSystem : List α}
    (apart : (pendingSystem :: messages.map ChatMessage.content).Pairwise List.Disjoint) :
    keptContents pendingSystem messages =
        pendingSystem ++ (messages.map ChatMessage.content).flatten ↔
      (pendingSystem = [] ∨ ReachesUser messages) ∧ Folds messages := by
  induction messages generalizing pendingSystem with
  | nil =>
      simp [keptContents, ReachesUser, Folds, eq_comm]
  | cons message rest ih =>
      obtain ⟨role, later⟩ := List.forall_mem_cons.mp known
      rw [List.map_cons, List.pairwise_cons] at apart
      obtain ⟨pendingApart, apart⟩ := apart
      have unpended : ([] :: rest.map ChatMessage.content).Pairwise List.Disjoint :=
        List.pairwise_cons.mpr
          ⟨fun _ _ => List.disjoint_nil_left _, (List.pairwise_cons.mp apart).2⟩
      rw [keptContents, List.map_cons, List.flatten_cons, ReachesUser, Folds]
      rcases role with system | user | assistant
      · -- The pending message is overwritten: it must be empty.
        have lengths := length_keptContents_le message.content rest
        have ih := ih later apart
        rw [if_pos system]
        simp only [system, String.reduceEq, false_and, or_self, or_false, true_implies]
        constructor
        · intro kept
          have empty : pendingSystem = [] := by
            rw [kept] at lengths
            simp only [List.length_append] at lengths
            exact List.length_eq_zero_iff.mp (by omega)
          rw [empty, List.nil_append] at kept
          obtain ⟨reaches, folds⟩ := ih.mp kept
          exact ⟨empty, fun some_ => reaches.resolve_left some_, folds⟩
        · rintro ⟨rfl, reaches, folds⟩
          rw [List.nil_append]
          refine ih.mpr ⟨?_, folds⟩
          by_cases empty : message.content = []
          · exact .inl empty
          · exact .inr (reaches empty)
      · -- The pending message is put in front of the content.
        have ih := ih later unpended
        simp only [List.nil_append, true_or, true_and] at ih
        simp only [user, String.reduceEq, if_false, if_true, true_or, or_true, true_and,
          false_implies]
        rw [List.append_assoc, List.append_cancel_left_eq, List.append_cancel_left_eq]
        exact ih
      · simp only [assistant, String.reduceEq, if_false, false_or, true_and, false_implies]
        by_cases silent : message.content = []
        · have pending : (pendingSystem :: rest.map ChatMessage.content).Pairwise List.Disjoint :=
            List.pairwise_cons.mpr ⟨fun content member =>
              pendingApart content (List.mem_cons_of_mem _ member), (List.pairwise_cons.mp apart).2⟩
          simp only [silent, List.nil_append, true_and]
          exact ih later pending
        by_cases empty : pendingSystem = []
        · have ih := ih later unpended
          simp only [List.nil_append, true_or, true_and] at ih
          simp only [empty, List.nil_append, List.append_cancel_left_eq, true_or, true_and]
          exact ih
        · -- Both have a first letter, and they differ.
          simp only [empty, silent, false_and, or_self, iff_false]
          intro kept
          obtain ⟨first, others, rfl⟩ := List.exists_cons_of_ne_nil empty
          obtain ⟨letter, more, shape⟩ := List.exists_cons_of_ne_nil silent
          rw [shape] at kept
          have same := (List.cons.inj kept).1
          have disjoint := pendingApart message.content List.mem_cons_self
          exact disjoint List.mem_cons_self (by rw [shape, same]; exact List.mem_cons_self)

end Folds

namespace ChatTemplate

section Mistral

variable {α : Type} {markup : Char → α} {message : ChatMessage α} {rest : List (ChatMessage α)}
  {prompt pendingSystem : List α}

theorem mistralLoop_system (role : message.role = "system") :
    mistralLoop markup (message :: rest) prompt pendingSystem =
      mistralLoop markup rest prompt message.content := by
  simp only [mistralLoop, role]

theorem mistralLoop_user (role : message.role = "user") :
    mistralLoop markup (message :: rest) prompt pendingSystem =
      mistralLoop markup rest (prompt ++ text markup "[INST] " ++
        withSystem markup pendingSystem message.content ++ text markup " [/INST]") [] := by
  simp only [mistralLoop, role]

theorem mistralLoop_assistant (role : message.role = "assistant") :
    mistralLoop markup (message :: rest) prompt pendingSystem =
      mistralLoop markup rest (prompt ++ message.content ++ text markup "</s>")
        pendingSystem := by
  simp only [mistralLoop, role]

theorem mistralLoop_known {messages : List (ChatMessage α)} {out : List α}
    (rendered : mistralLoop markup messages prompt pendingSystem = .ok out) :
    KnownRoles messages := by
  induction messages generalizing prompt pendingSystem with
  | nil => exact fun _ member => absurd member List.not_mem_nil
  | cons message rest ih =>
      rw [mistralLoop] at rendered
      split at rendered
      next role => exact List.forall_mem_cons.mpr ⟨.inl role, ih rendered⟩
      next role => exact List.forall_mem_cons.mpr ⟨.inr (.inl role), ih rendered⟩
      next role => exact List.forall_mem_cons.mpr ⟨.inr (.inr role), ih rendered⟩
      next => contradiction

theorem filter_text {letter : α → Bool} (silent : ∀ c, letter (markup c) = false)
    (spelling : String) : (text markup spelling).filter letter = [] := by
  rw [text, List.filter_map, List.map_eq_nil_iff, List.filter_eq_nil_iff]
  intro c _
  rw [Function.comp_apply, silent]
  decide

theorem filter_withSystem {letter : α → Bool} (silent : ∀ c, letter (markup c) = false)
    (pendingSystem content : List α) :
    (withSystem markup pendingSystem content).filter letter =
      pendingSystem.filter letter ++ content.filter letter := by
  rw [withSystem]
  split_ifs with empty
  · rw [List.isEmpty_iff.mp empty]
    rfl
  · rw [List.filter_append, List.filter_append, filter_text silent, List.append_nil]

/-- The letters of a prompt of the Mistral template are what is kept of the contents. -/
theorem mistralLoop_letters {letter : α → Bool} (silent : ∀ c, letter (markup c) = false)
    {messages : List (ChatMessage α)} {out : List α}
    (letters : ∀ message ∈ messages, message.content.filter letter = message.content)
    (pending : pendingSystem.filter letter = pendingSystem)
    (rendered : mistralLoop markup messages prompt pendingSystem = .ok out) :
    out.filter letter = prompt.filter letter ++ keptContents pendingSystem messages := by
  induction messages generalizing prompt pendingSystem with
  | nil =>
      cases rendered
      rw [keptContents, List.append_nil]
  | cons message rest ih =>
      obtain ⟨role, -⟩ := List.forall_mem_cons.mp (mistralLoop_known rendered)
      obtain ⟨own, letters⟩ := List.forall_mem_cons.mp letters
      rw [keptContents]
      rcases role with system | user | assistant
      · rw [mistralLoop_system system] at rendered
        rw [if_pos system]
        exact ih letters own rendered
      · rw [mistralLoop_user user] at rendered
        simp only [user, String.reduceEq, if_false, if_true]
        rw [ih letters rfl rendered]
        simp only [List.filter_append, filter_text silent, filter_withSystem silent, pending, own,
          List.append_nil, List.append_assoc, List.nil_append]
      · rw [mistralLoop_assistant assistant] at rendered
        simp only [assistant, String.reduceEq, if_false]
        rw [ih letters pending rendered]
        simp only [List.filter_append, filter_text silent, own, List.append_nil, List.append_assoc]

/-- A prompt of the Mistral template carries the contents if every system message folds. -/
theorem mistralLoop_carries {messages : List (ChatMessage α)} {out : List α}
    (rendered : mistralLoop markup messages prompt pendingSystem = .ok out)
    (reaches : pendingSystem = [] ∨ ReachesUser messages) (folds : Folds messages) :
    ∃ tail, out = prompt ++ tail ∧
      Carries (pendingSystem :: messages.map ChatMessage.content) tail := by
  induction messages generalizing prompt pendingSystem with
  | nil =>
      rw [ReachesUser, or_false] at reaches
      rw [reaches]
      cases rendered
      exact ⟨[], (List.append_nil _).symm, carries_nil_cons.mpr trivial⟩
  | cons message rest ih =>
      obtain ⟨role, -⟩ := List.forall_mem_cons.mp (mistralLoop_known rendered)
      rw [ReachesUser] at reaches
      rw [Folds] at folds
      obtain ⟨here, folds⟩ := folds
      rcases role with system | user | assistant
      · simp only [system, String.reduceEq, false_and, or_self, or_false] at reaches
        rw [mistralLoop_system system] at rendered
        have next : message.content = [] ∨ ReachesUser rest := by
          by_cases empty : message.content = []
          · exact .inl empty
          · exact .inr (here system empty)
        obtain ⟨tail, rfl, carries⟩ := ih rendered next folds
        rw [reaches]
        exact ⟨tail, rfl, carries_nil_cons.mpr carries⟩
      · rw [mistralLoop_user user] at rendered
        obtain ⟨tail, rfl, carries⟩ := ih rendered (.inl rfl) folds
        have later := carries_nil_cons.mp carries
        refine ⟨text markup "[INST] " ++ (withSystem markup pendingSystem message.content ++
          (text markup " [/INST]" ++ tail)), by simp only [List.append_assoc], .behind ?_ _⟩
        have turn : Carries (message.content :: rest.map ChatMessage.content)
            (message.content ++ (text markup " [/INST]" ++ tail)) := (later.behind _).cons _
        rw [List.map_cons, withSystem]
        split_ifs with empty
        · rw [List.isEmpty_iff] at empty
          rw [empty]
          exact carries_nil_cons.mpr turn
        · rw [List.append_assoc, List.append_assoc]
          exact (turn.behind _).cons _
      · simp only [assistant, String.reduceEq, false_or, true_and] at reaches
        rw [mistralLoop_assistant assistant] at rendered
        have next : pendingSystem = [] ∨ ReachesUser rest := reaches.imp_right And.right
        obtain ⟨tail, rfl, carries⟩ := ih rendered next folds
        refine ⟨message.content ++ (text markup "</s>" ++ tail), by simp only [List.append_assoc],
          ?_⟩
        rw [List.map_cons]
        rcases reaches with empty | ⟨empty, -⟩
        · rw [empty] at carries ⊢
          exact carries_nil_cons.mpr (((carries_nil_cons.mp carries).behind _).cons _)
        · rw [empty]
          obtain ⟨before, after, rfl, later⟩ := carries
          refine ⟨text markup "</s>" ++ before, after, by simp only [List.append_assoc,
            List.nil_append], carries_nil_cons.mpr later⟩

end Mistral

/-! ## The other templates -/

section Frames

variable {α : Type} {markup : Char → α} (messages : List (ChatMessage α))

theorem renderChatMl_carries :
    Carries (messages.map ChatMessage.content) (renderChatMl markup messages) :=
  carries_flatMap (fun message => text markup "<|im_start|>" ++ text markup message.role ++
    text markup "\n") ChatMessage.content (fun _ => text markup "<|im_end|>\n") messages _

theorem renderLlama3_carries :
    Carries (messages.map ChatMessage.content) (renderLlama3 markup messages) := by
  rw [renderLlama3, List.append_assoc]
  exact (carries_flatMap (fun message => text markup "<|start_header_id|>" ++
    text markup message.role ++ text markup "<|end_header_id|>\n\n") ChatMessage.content
    (fun _ => text markup "<|eot_id|>") messages _).behind _

variable {letter : α → Bool} (silent : ∀ c, letter (markup c) = false)
  (letters : ∀ message ∈ messages, message.content.filter letter = message.content)

include silent letters

theorem renderChatMl_letters :
    (renderChatMl markup messages).filter letter =
      (messages.map ChatMessage.content).flatten := by
  rw [renderChatMl, List.filter_append, List.filter_flatMap, filter_text silent, List.append_nil,
    ← List.flatMap_def]
  refine List.flatMap_congr fun message member => ?_
  simp only [List.filter_append, filter_text silent, letters message member, List.nil_append,
    List.append_nil]

theorem renderLlama3_letters :
    (renderLlama3 markup messages).filter letter =
      (messages.map ChatMessage.content).flatten := by
  rw [renderLlama3, List.filter_append, List.filter_append, List.filter_flatMap,
    filter_text silent, filter_text silent, List.append_nil, List.nil_append, ← List.flatMap_def]
  refine List.flatMap_congr fun message member => ?_
  simp only [List.filter_append, filter_text silent, letters message member, List.nil_append,
    List.append_nil]

end Frames

section Contents

variable {α : Type} {markup : Char → α} {template : ChatTemplate} {messages : List (ChatMessage α)}
  {prompt : List α}

/-- Every rendered prompt carries the contents, if the Mistral template folds. -/
theorem render_carries (rendered : template.render markup messages = .ok prompt)
    (folds : template = .mistralInstruct → Folds messages) :
    Carries (messages.map ChatMessage.content) prompt := by
  unfold render at rendered
  split_ifs at rendered
  cases template with
  | chatMl =>
      cases rendered
      exact renderChatMl_carries messages
  | llama3 =>
      cases rendered
      exact renderLlama3_carries messages
  | mistralInstruct =>
      obtain ⟨tail, rfl, carries⟩ := mistralLoop_carries rendered (.inl rfl) (folds rfl)
      exact (carries_nil_cons.mp carries).behind _

/-- The letters of a rendered prompt are the contents, unless the Mistral template does not fold. -/
theorem render_letters_iff {letter : α → Bool} (silent : ∀ c, letter (markup c) = false)
    (letters : ∀ message ∈ messages, message.content.filter letter = message.content)
    (apart : (messages.map ChatMessage.content).Pairwise List.Disjoint)
    (rendered : template.render markup messages = .ok prompt) :
    prompt.filter letter = (messages.map ChatMessage.content).flatten ↔
      (template = .mistralInstruct → Folds messages) := by
  unfold render at rendered
  split_ifs at rendered
  cases template with
  | chatMl =>
      cases rendered
      exact iff_of_true (renderChatMl_letters messages silent letters) (fun other => by contradiction)
  | llama3 =>
      cases rendered
      exact iff_of_true (renderLlama3_letters messages silent letters) (fun other => by contradiction)
  | mistralInstruct =>
      have unpended : ([] :: messages.map ChatMessage.content).Pairwise List.Disjoint :=
        List.pairwise_cons.mpr ⟨fun _ _ => List.disjoint_nil_left _, apart⟩
      have kept := keptContents_eq_iff (mistralLoop_known rendered) unpended
      rw [mistralLoop_letters silent letters rfl rendered, filter_text silent, List.nil_append]
      simp only [List.nil_append, true_or, true_and] at kept
      rw [kept]
      simp only [true_implies]

end Contents

end ChatTemplate

/-! ## Marked contents -/

/-- A letter of the markup, or one of the content of a message. -/
abbrev Letter := Char ⊕ (Nat × Char)

def Letter.char : Letter → Char := Sum.elim id Prod.snd

def Letter.isContent : Letter → Bool := Sum.isRight

/-- The messages with the number of the message at every letter of a content. -/
def marked (messages : List (ChatMessage Char)) : List (ChatMessage Letter) :=
  messages.zipIdx.map fun (message, i) => message.map fun c => .inr (i, c)

theorem map_marked (messages : List (ChatMessage Char)) :
    (marked messages).map (ChatMessage.map Letter.char) = messages := by
  have same (entry : ChatMessage Char × Nat) :
      (entry.1.map fun c => (.inr (entry.2, c) : Letter)).map Letter.char = entry.1 := by
    have letters : (Letter.char ∘ fun c => (.inr (entry.2, c) : Letter)) = id := rfl
    rw [ChatMessage.map, ChatMessage.map, List.map_map, letters, List.map_id]
  rw [marked, List.map_map]
  refine Eq.trans (List.map_congr_left fun entry _ => same entry) ?_
  exact List.zipIdx_map_fst 0 messages

theorem marked_letters {messages : List (ChatMessage Char)} :
    ∀ message ∈ marked messages, message.content.filter Letter.isContent = message.content := by
  intro message member
  obtain ⟨entry, -, rfl⟩ := List.mem_map.mp member
  refine List.filter_eq_self.mpr fun letter inside => ?_
  obtain ⟨c, -, rfl⟩ := List.mem_map.mp inside
  rfl

theorem marked_apart (messages : List (ChatMessage Char)) :
    ((marked messages).map ChatMessage.content).Pairwise List.Disjoint := by
  rw [marked, List.map_map, List.pairwise_map]
  refine (pairwise_zipIdx messages).imp fun {left right} less letter inLeft inRight => ?_
  obtain ⟨c, -, rfl⟩ := List.mem_map.mp inLeft
  obtain ⟨d, -, same⟩ := List.mem_map.mp inRight
  have equal := (Prod.mk.inj (Sum.inr.inj same)).1
  omega

theorem reachesUser_map {α β : Type} (f : α → β) (messages : List (ChatMessage α)) :
    ReachesUser (messages.map (ChatMessage.map f)) ↔ ReachesUser messages := by
  induction messages with
  | nil => exact Iff.rfl
  | cons message rest ih =>
      rw [List.map_cons, ReachesUser, ReachesUser, ih]
      simp only [ChatMessage.map, List.map_eq_nil_iff]

theorem folds_map {α β : Type} (f : α → β) (messages : List (ChatMessage α)) :
    Folds (messages.map (ChatMessage.map f)) ↔ Folds messages := by
  induction messages with
  | nil => exact Iff.rfl
  | cons message rest ih =>
      rw [List.map_cons, Folds, Folds, ih, reachesUser_map]
      simp only [ChatMessage.map, Ne, List.map_eq_nil_iff]

theorem folds_marked (messages : List (ChatMessage Char)) :
    Folds (marked messages) ↔ Folds messages := by
  rw [← folds_map Letter.char (marked messages), map_marked]

/-! ## Prompts that keep everything -/

/-- The contents occur in the prompt one behind the other.  In the prompt of marked contents every
letter of a content occurs once and in its place, so that no content is found in the markup or in
another content. -/
structure Preserves (template : ChatTemplate) (messages : List (ChatMessage Char))
    (prompt : List Char) : Prop where
  carried : Carries (messages.map ChatMessage.content) prompt
  once : ∃ image, template.render (.inl : Char → Letter) (marked messages) = .ok image ∧
    image.map Letter.char = prompt ∧
    image.filter Letter.isContent = ((marked messages).map ChatMessage.content).flatten

/-- Rendering drops and reorders nothing, except where the Mistral template does not fold a system
message into a user turn. -/
theorem render_preserves_iff {template : ChatTemplate} {messages : List (ChatMessage Char)}
    {prompt : List Char} (rendered : template.render id messages = .ok prompt) :
    Preserves template messages prompt ↔
      (template = .mistralInstruct → Folds messages) := by
  have mapped := ChatTemplate.render_map Letter.char (.inl : Char → Letter) template
    (marked messages)
  rw [map_marked] at mapped
  have silent (c : Char) : Letter.isContent (.inl c) = false := rfl
  have spelled : (Letter.char ∘ (.inl : Char → Letter)) = id := rfl
  rw [spelled, rendered] at mapped
  obtain ⟨image, drawn, same⟩ := map_ok_iff.mp mapped.symm
  have letters {image : List Letter}
      (drawn : template.render (.inl : Char → Letter) (marked messages) = .ok image) :=
    ChatTemplate.render_letters_iff silent marked_letters (marked_apart messages) drawn
  constructor
  · intro preserves mistral
    obtain ⟨other, again, -, once⟩ := preserves.once
    obtain rfl : other = image := Except.ok.inj (again.symm.trans drawn)
    exact (folds_marked messages).mp ((letters drawn).mp once mistral)
  · intro folds
    have folded (mistral : template = .mistralInstruct) : Folds (marked messages) :=
      (folds_marked messages).mpr (folds mistral)
    exact ⟨ChatTemplate.render_carries rendered folds,
      ⟨image, drawn, same, (letters drawn).mpr folded⟩⟩

def systemTurn (content : String) : ChatMessage Char := ⟨"system", content.toList⟩

def userTurn (content : String) : ChatMessage Char := ⟨"user", content.toList⟩

/-- One system message in front of a user turn is kept. -/
theorem render_preserves_folded :
    Preserves .mistralInstruct [systemTurn "A", userTurn "hi"] "<s>[INST] A\n\nhi [/INST]".toList :=
  (render_preserves_iff (by decide +kernel)).mpr fun _ =>
    ⟨fun _ _ => .inl rfl, fun other => absurd other (by decide), trivial⟩

/-- Of two system messages in a row the first one is lost. -/
theorem not_preserves_overwritten :
    ChatTemplate.render id .mistralInstruct [systemTurn "A", systemTurn "B", userTurn "hi"] =
        .ok "<s>[INST] B\n\nhi [/INST]".toList ∧
      ¬ Carries ([systemTurn "A", systemTurn "B", userTurn "hi"].map ChatMessage.content)
        "<s>[INST] B\n\nhi [/INST]".toList := by
  constructor
  · decide +kernel
  · rintro ⟨before, after, shape, -⟩
    have member : 'A' ∈ "<s>[INST] B\n\nhi [/INST]".toList := by
      rw [shape]
      exact List.mem_append_left _ (List.mem_append_right _ (List.mem_singleton_self _))
    exact absurd member (by decide +kernel)

end AiCoreStack.Serving
