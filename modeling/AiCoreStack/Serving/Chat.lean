import AiCoreStack.Serving.Session

/-!
# Chat prompts

The templates of `chat.rs` put the contents of the messages between their markup.  They do not look
into a content, so they are written for contents over any alphabet that the markup can be read in.
Where every letter carries the number of its message, a prompt shows what became of each content.
-/

namespace AiCoreStack.Serving

/-- A turn of a conversation. -/
structure ChatMessage (α : Type) where
  role : String
  content : List α
  deriving DecidableEq, Repr

namespace ChatTemplate

section Render

variable {α : Type} (markup : Char → α)

/-- Markup of a template. -/
@[irreducible] def text (spelling : String) : List α := spelling.toList.map markup

/-- `render_chatml`. -/
def renderChatMl (messages : List (ChatMessage α)) : List α :=
  (messages.flatMap fun message =>
    text markup "<|im_start|>" ++ text markup message.role ++ text markup "\n" ++
      message.content ++ text markup "<|im_end|>\n") ++
    text markup "<|im_start|>assistant\n"

/-- `render_llama3`. -/
def renderLlama3 (messages : List (ChatMessage α)) : List α :=
  text markup "<|begin_of_text|>" ++ (messages.flatMap fun message =>
    text markup "<|start_header_id|>" ++ text markup message.role ++
      text markup "<|end_header_id|>\n\n" ++ message.content ++ text markup "<|eot_id|>") ++
    text markup "<|start_header_id|>assistant<|end_header_id|>\n\n"

/-- The content of a user turn, behind the pending system message. -/
def withSystem (pendingSystem content : List α) : List α :=
  if pendingSystem.isEmpty then content
  else pendingSystem ++ text markup "\n\n" ++ content

/-- The loop of `render_mistral`: the prompt so far, and the pending system message. -/
def mistralLoop : List (ChatMessage α) → List α → List α → Except EngineError (List α)
  | [], prompt, _ => .ok prompt
  | message :: rest, prompt, pendingSystem =>
      match message.role with
      | "system" => mistralLoop rest prompt message.content
      | "user" =>
          mistralLoop rest (prompt ++ text markup "[INST] " ++
            withSystem markup pendingSystem message.content ++ text markup " [/INST]") []
      | "assistant" =>
          mistralLoop rest (prompt ++ message.content ++ text markup "</s>") pendingSystem
      | other =>
          .error (.invalidGenerationConfig
            s!"unsupported chat role for the Mistral template: {other}")

/-- `render_mistral`. -/
def renderMistral (messages : List (ChatMessage α)) : Except EngineError (List α) :=
  mistralLoop markup messages (text markup "<s>") []

/-- `render`. -/
def render (template : ChatTemplate) (messages : List (ChatMessage α)) :
    Except EngineError (List α) :=
  if messages.isEmpty then
    .error (.invalidGenerationConfig "chat messages must not be empty")
  else
    match template with
    | .chatMl => .ok (renderChatMl markup messages)
    | .llama3 => .ok (renderLlama3 markup messages)
    | .mistralInstruct => renderMistral markup messages

end Render

end ChatTemplate

/-! ## Another alphabet -/

/-- A message in another alphabet. -/
def ChatMessage.map {α β : Type} (f : α → β) (message : ChatMessage α) : ChatMessage β :=
  ⟨message.role, message.content.map f⟩

namespace ChatTemplate

section Map

variable {α β : Type} (f : α → β) (markup : Char → α)

theorem map_text (spelling : String) :
    (text markup spelling).map f = text (f ∘ markup) spelling := by
  rw [text, text, List.map_map]

theorem map_withSystem (pendingSystem content : List α) :
    (withSystem markup pendingSystem content).map f =
      withSystem (f ∘ markup) (pendingSystem.map f) (content.map f) := by
  cases pendingSystem with
  | nil => rfl
  | cons first rest =>
      rw [withSystem, withSystem, List.map_cons]
      simp only [List.isEmpty_cons, Bool.false_eq_true, if_false, List.map_append, map_text,
        List.map_cons]

theorem mistralLoop_map (messages : List (ChatMessage α)) (prompt pendingSystem : List α) :
    mistralLoop (f ∘ markup) (messages.map (ChatMessage.map f)) (prompt.map f)
        (pendingSystem.map f) =
      (mistralLoop markup messages prompt pendingSystem).map (List.map f) := by
  induction messages generalizing prompt pendingSystem with
  | nil => rfl
  | cons message rest ih =>
      rw [List.map_cons, mistralLoop, mistralLoop]
      dsimp only [ChatMessage.map]
      split
      · exact ih _ _
      · rw [← ih, List.map_append, List.map_append, List.map_append, map_text, map_text,
          map_withSystem]
        rfl
      · rw [← ih, List.map_append, List.map_append, map_text]
      · rfl

/-- The templates do not look into a content. -/
theorem render_map (template : ChatTemplate) (messages : List (ChatMessage α)) :
    render (f ∘ markup) template (messages.map (ChatMessage.map f)) =
      (render markup template messages).map (List.map f) := by
  unfold render
  rw [List.isEmpty_map]
  split_ifs
  · rfl
  cases template with
  | chatMl =>
      refine congrArg Except.ok ?_
      rw [renderChatMl, renderChatMl, List.map_append, map_text, List.map_flatMap,
        List.flatMap_map]
      refine congrArg (· ++ _) (List.flatMap_congr fun message _ => ?_)
      simp only [List.map_append, map_text, ChatMessage.map]
  | llama3 =>
      refine congrArg Except.ok ?_
      rw [renderLlama3, renderLlama3, List.map_append, List.map_append, map_text, map_text,
        List.map_flatMap, List.flatMap_map]
      refine congrArg (_ ++ · ++ _) (List.flatMap_congr fun message _ => ?_)
      simp only [List.map_append, map_text, ChatMessage.map]
  | mistralInstruct =>
      have mapped := mistralLoop_map f markup messages (text markup "<s>") []
      rwa [map_text] at mapped

end Map

end ChatTemplate

end AiCoreStack.Serving
