import SheriMl.Protocol.Models

/-!
# User messages

Two recognisers of what the user wrote: `parse_turn_item` of
`core/src/event_mapping.rs`, and `is_user_turn_boundary` of
`core/src/context_manager/history.rs`. Both leave out the messages of the user role
that only carry context (instructions, skills, the environment, an abort, a shell
command); the first also skips the tags around images. `isUserTurnBoundary_iff`: they
agree on every item.
-/

namespace SheriMl.ContextManager

open Protocol

/-- The tests of a text's first characters, in lower case and after white space. -/
def startsWithTag (text tag : Str) : Bool :=
  Str.startsWith (Str.toAsciiLowercase (Str.trimStart text)) tag

def isSessionPrefix (text : Str) : Bool :=
  startsWithTag text "<environment_context>" || startsWithTag text "<turn_aborted>"

def isUserShellCommandText (text : Str) : Bool := startsWithTag text "<user_shell_command>"

/-- `UserInstructions::is_user_instructions`. -/
def isUserInstructions : List ContentItem → Bool
  | [.inputText text] =>
    Str.startsWith text "# AGENTS.md instructions for " ||
      Str.startsWith text "<user_instructions>"
  | _ => false

/-- `SkillInstructions::is_skill_instructions`. -/
def isSkillInstructions : List ContentItem → Bool
  | [.inputText text] => Str.startsWith text "<skill"
  | _ => false

def isImageOpenTagText (text : Str) : Bool := text = "<image>"

def isImageCloseTagText (text : Str) : Bool := text = "</image>"

def isLocalImageOpenTagText (text : Str) : Bool :=
  match Str.stripPrefix text "<image name=" with
  | some rest => Str.endsWith rest ">"
  | none => false

def isLocalImageCloseTagText (text : Str) : Bool := isImageCloseTagText text

def isInputImage : Option ContentItem → Bool
  | some (.inputImage _) => true
  | _ => false

/-- What of a user's input a message carries. -/
inductive UserInput where
  | text (text : Str)
  | image (imageUrl : Str)
  deriving DecidableEq

/-- The kinds of item that a response item may be, without the ids made up for them. -/
inductive TurnItem where
  | userMessage (content : List UserInput)
  | agentMessage (id : Option Str) (content : List Str) (phase : Option MessagePhase)
  | reasoning (id : Str) (summaryText rawContent : List Str)
  | webSearch (id : Str)
  deriving DecidableEq

/-- The loop of `parse_user_message`, after the item `prev`. -/
def parseContent : Option ContentItem → List ContentItem → Option (List UserInput)
  | _, [] => some []
  | prev, .inputText text :: message =>
    if (isLocalImageOpenTagText text || isImageOpenTagText text) && isInputImage message.head? ||
        (isLocalImageCloseTagText text || isImageCloseTagText text) && isInputImage prev then
      parseContent (some (.inputText text)) message
    else if isSessionPrefix text || isUserShellCommandText text then none
    else (parseContent (some (.inputText text)) message).map (.text text :: ·)
  | _, .inputImage imageUrl :: message =>
    (parseContent (some (.inputImage imageUrl)) message).map (.image imageUrl :: ·)
  | _, .outputText text :: message =>
    if isSessionPrefix text then none else parseContent (some (.outputText text)) message

def parseUserMessage (message : List ContentItem) : Option (List UserInput) :=
  if isUserInstructions message || isSkillInstructions message then none
  else parseContent none message

def parseAgentMessage (id : Option Str) (message : List ContentItem)
    (phase : Option MessagePhase) : TurnItem :=
  .agentMessage id
    (message.filterMap fun
      | .outputText text => some text
      | _ => none)
    phase

def parseTurnItem : ResponseItem → Option TurnItem
  | .message id role content _ phase =>
    if role = "user" then (parseUserMessage content).map .userMessage
    else if role = "assistant" then some (parseAgentMessage id content phase)
    else none
  | .reasoning id summary content _ =>
    some (.reasoning id summary
      ((content.getD []).map fun
        | .reasoningText text => text
        | .text text => text))
  | .webSearchCall id _ => some (.webSearch (id.getD []))
  | _ => none

/-- Whether a content item leaves the message one of the user's own. -/
def isUserContent : ContentItem → Bool
  | .inputText text => !(isSessionPrefix text || isUserShellCommandText text)
  | .outputText text => !isSessionPrefix text
  | .inputImage _ => true

def isUserTurnBoundary : ResponseItem → Bool
  | .message _ role content _ _ =>
    if role ≠ "user" then false
    else if isUserInstructions content || isSkillInstructions content then false
    else content.all isUserContent
  | _ => false

/-- `UserMessageItem::message`. -/
def messageText (content : List UserInput) : Str :=
  (content.map fun
    | .text text => text
    | .image _ => []).flatten

/-! ## The recognisers agree -/

section Agree

variable {text tag rest : Str} {message : List ContentItem} {item : ResponseItem} {c d : Char}

/-- A tag goes on as the text does after its first character. -/
theorem startsWithTag_eq_false (htext : text = '<' :: c :: rest)
    (htag : ∃ tail, tag = '<' :: d :: tail) (hne : Str.asciiLower c ≠ d) :
    startsWithTag text tag = false := by
  obtain ⟨tail, rfl⟩ := htag
  have htrim : Str.trimStart text = text := by
    rw [htext, Str.trimStart, List.dropWhile_cons_of_neg (by decide)]
  rw [Bool.eq_false_iff]
  intro hstarts
  obtain ⟨tail', hlower⟩ := Str.startsWith_iff.1 hstarts
  rw [htrim, htext] at hlower
  simp only [Str.toAsciiLowercase, List.map_cons, List.cons_append, List.cons.injEq] at hlower
  exact hne hlower.2.1

/-- What begins like a tag of an image is of the user's own content. -/
theorem isUserContent_of_second (htext : text = '<' :: c :: rest) (hc : c = 'i' ∨ c = '/') :
    isUserContent (.inputText text) = true := by
  have hother : ∀ d tag, (d = 'e' ∨ d = 't' ∨ d = 'u') → (∃ tail, tag = '<' :: d :: tail) →
      startsWithTag text tag = false := by
    intro d tag hd htag
    refine startsWithTag_eq_false htext htag ?_
    rcases hc with rfl | rfl
    · rcases hd with rfl | rfl | rfl
      · decide
      · decide
      · decide
    · rcases hd with rfl | rfl | rfl
      · decide
      · decide
      · decide
  have henvironment := hother 'e' "<environment_context>" (.inl rfl) ⟨_, rfl⟩
  have haborted := hother 't' "<turn_aborted>" (.inr (.inl rfl)) ⟨_, rfl⟩
  have hshell := hother 'u' "<user_shell_command>" (.inr (.inr rfl)) ⟨_, rfl⟩
  simp only [isUserContent, isSessionPrefix, isUserShellCommandText, henvironment, haborted,
    hshell, Bool.or_self, Bool.not_false]

theorem isUserContent_of_openTag
    (h : (isLocalImageOpenTagText text || isImageOpenTagText text) = true) :
    isUserContent (.inputText text) = true := by
  rcases Bool.or_eq_true_iff.1 h with hlocal | hopen
  · unfold isLocalImageOpenTagText at hlocal
    split at hlocal
    next rest hstrip => exact isUserContent_of_second (Str.stripPrefix_eq_some.1 hstrip) (.inl rfl)
    · cases hlocal
  · exact isUserContent_of_second (of_decide_eq_true hopen) (.inl rfl)

theorem isUserContent_of_closeTag
    (h : (isLocalImageCloseTagText text || isImageCloseTagText text) = true) :
    isUserContent (.inputText text) = true := by
  have hclose : isImageCloseTagText text = true := by
    rwa [isLocalImageCloseTagText, Bool.or_self] at h
  exact isUserContent_of_second (of_decide_eq_true hclose) (.inr rfl)

theorem isSome_parseContent (prev : Option ContentItem) :
    (parseContent prev message).isSome = message.all isUserContent := by
  induction message generalizing prev with
  | nil => rfl
  | cons item message ih =>
    rw [List.all_cons]
    cases item with
    | inputText text =>
      rw [parseContent]
      split
      next htag =>
        have hown : isUserContent (.inputText text) = true := by
          rcases Bool.or_eq_true_iff.1 htag with hopen | hclose
          · exact isUserContent_of_openTag (Bool.and_eq_true_iff.1 hopen).1
          · exact isUserContent_of_closeTag (Bool.and_eq_true_iff.1 hclose).1
        rw [ih, hown, Bool.true_and]
      next htag =>
        split
        next hcontext => simp only [isUserContent, hcontext, Option.isSome_none, Bool.not_true,
          Bool.false_and]
        next hcontext =>
          rw [Option.isSome_map, ih, isUserContent, Bool.eq_false_iff.2 hcontext, Bool.not_false,
            Bool.true_and]
    | inputImage imageUrl => rw [parseContent, Option.isSome_map, ih, isUserContent, Bool.true_and]
    | outputText text =>
      rw [parseContent]
      split
      next hprefix => simp only [isUserContent, hprefix, Option.isSome_none, Bool.not_true,
        Bool.false_and]
      next hprefix =>
        rw [ih, isUserContent, Bool.eq_false_iff.2 hprefix, Bool.not_false, Bool.true_and]

/-- An item is a boundary just if it parses as a user message. -/
theorem isUserTurnBoundary_iff : isUserTurnBoundary item = true ↔
    ∃ content, parseTurnItem item = some (.userMessage content) := by
  cases item with
  | message id role content endTurn phase =>
    simp only [isUserTurnBoundary, parseTurnItem]
    by_cases hrole : role = "user"
    · rw [if_neg (not_not.2 hrole), if_pos hrole, parseUserMessage]
      split
      next hcontext => simp
      next hcontext =>
        rw [← isSome_parseContent none, Option.isSome_iff_exists]
        simp
    · rw [if_pos hrole, if_neg hrole]
      refine iff_of_false (by simp) ?_
      rintro ⟨content', h⟩
      split at h
      · cases h
      · cases h
  | reasoning id summary content encrypted =>
    refine iff_of_false (by simp [isUserTurnBoundary]) ?_
    rintro ⟨content', h⟩
    cases h
  | webSearchCall id status =>
    refine iff_of_false (by simp [isUserTurnBoundary]) ?_
    rintro ⟨content', h⟩
    cases h
  | _ =>
    refine iff_of_false (by simp [isUserTurnBoundary]) ?_
    rintro ⟨content', h⟩
    cases h

end Agree

end SheriMl.ContextManager
