import SheriMl.Tui.MentionCodec

/-!
# Mentions read back

A message is encoded piece by piece: characters stay, and a bound token becomes a link. What is
read back is the message with the mentions that were bound exactly if each of them can be read from
its link and no bracket of the message becomes the start of a link (`decode_encode_iff`).
-/

namespace SheriMl.MentionCodec

/-! ## The mentions that are bound -/

/-- The names of the `$name` tokens of a text. -/
def tokens : Str → List Str
  | [] => []
  | ch :: rest =>
    if ch = '$' ∧ rest.takeWhile isMentionNameChar ≠ [] then
      rest.takeWhile isMentionNameChar :: tokens rest
    else tokens rest

/-- Each token takes the first mention of its name that is left. -/
def bindTokens : List Str → List LinkedMention → List LinkedMention
  | [], _ => []
  | name :: names, mentions =>
    match mentions.find? fun m => m.mention == name with
    | some m => m :: bindTokens names (mentions.eraseP fun m => m.mention == name)
    | none => bindTokens names mentions

def boundMentions (text : Str) (mentions : List LinkedMention) : List LinkedMention :=
  bindTokens (tokens text) mentions

/-- The mention a token takes stands behind mentions of other names. -/
theorem eraseP_of_find? {name : Str} {mentions : List LinkedMention} {m : LinkedMention}
    (h : mentions.find? (fun m => m.mention == name) = some m) :
    ∃ before after, mentions = before ++ m :: after ∧ m.mention = name ∧
      (∀ other ∈ before, other.mention ≠ name) ∧
      mentions.eraseP (fun m => m.mention == name) = before ++ after := by
  obtain ⟨hname, before, after, rfl, hbefore⟩ := List.find?_eq_some_iff_append.1 h
  refine ⟨before, after, rfl, beq_iff_eq.1 hname, ?_, ?_⟩
  · intro other hother heq
    have hne := hbefore other hother
    simp [heq] at hne
  · rw [List.eraseP_append_right _ (by simpa using hbefore), List.eraseP_cons, hname, cond_true]

/-- All the mentions are bound if there are enough tokens of each name. -/
theorem bindTokens_perm {names : List Str} {mentions : List LinkedMention}
    (h : ∀ name, (mentions.map LinkedMention.mention).count name ≤ names.count name) :
    (bindTokens names mentions).Perm mentions := by
  induction names generalizing mentions with
  | nil =>
    cases mentions with
    | nil => exact .nil
    | cons m mentions =>
      have hcount := h m.mention
      rw [List.map_cons, List.count_cons_self] at hcount
      cases hcount
  | cons name names ih =>
    rw [bindTokens]
    split
    · next m hfind =>
      obtain ⟨before, after, rfl, rfl, -, herase⟩ := eraseP_of_find? hfind
      rw [herase]
      refine ((ih ?_).cons m).trans List.perm_middle.symm
      intro other
      have hcount := h other
      rw [List.map_append, List.map_cons, List.count_append, List.count_cons] at hcount
      rw [List.map_append, List.count_append]
      rw [List.count_cons] at hcount
      omega
    · next hnone =>
      refine ih fun other => ?_
      have hcount := h other
      rw [List.count_cons] at hcount
      by_cases hother : name = other
      · subst hother
        have hnot : name ∉ mentions.map LinkedMention.mention := by
          intro hmem
          obtain ⟨m, hm, hmname⟩ := List.mem_map.1 hmem
          exact List.find?_eq_none.1 hnone m hm (beq_iff_eq.2 hmname)
        rw [List.count_eq_zero_of_not_mem hnot]
        exact Nat.zero_le _
      · rwa [if_neg (by simpa using hother), Nat.add_zero] at hcount

theorem boundMentions_perm {text : Str} {mentions : List LinkedMention}
    (h : (mentions.map LinkedMention.mention).Sublist (tokens text)) :
    (boundMentions text mentions).Perm mentions :=
  bindTokens_perm fun name => h.count_le name

/-! ## The pieces of a text -/

/-- A text as the encoder reads it: its characters, and the tokens that are bound. -/
inductive Piece where
  | char (c : Char)
  | token (m : LinkedMention)

namespace Piece

def plain : Piece → Str
  | char c => [c]
  | token m => '$' :: m.mention

def encoded : Piece → Str
  | char c => [c]
  | token m => link m

def bound : Piece → Option LinkedMention
  | char _ => none
  | token m => some m

end Piece

def plain (ps : List Piece) : Str := ps.flatMap Piece.plain

def encoded (ps : List Piece) : Str := ps.flatMap Piece.encoded

def bound (ps : List Piece) : List LinkedMention := ps.filterMap Piece.bound

/-- The pieces of a text, with the paths that are left for each name. -/
def pieces (queues : Queues) : Str → List Piece
  | [] => []
  | ch :: rest =>
    match pathsAt queues ch rest with
    | path :: paths =>
      let name := rest.takeWhile isMentionNameChar
      .token ⟨name, path⟩ ::
        pieces (Function.update queues name paths) (rest.dropWhile isMentionNameChar)
    | [] => .char ch :: pieces queues rest
termination_by text => text.length
decreasing_by
  · exact length_dropWhile_lt ..
  · exact Nat.lt_succ_self _

@[simp] theorem plain_char (c : Char) (ps : List Piece) : plain (.char c :: ps) = c :: plain ps :=
  rfl

@[simp] theorem plain_token (m : LinkedMention) (ps : List Piece) :
    plain (.token m :: ps) = '$' :: (m.mention ++ plain ps) := rfl

@[simp] theorem encoded_char (c : Char) (ps : List Piece) :
    encoded (.char c :: ps) = c :: encoded ps := rfl

@[simp] theorem encoded_token (m : LinkedMention) (ps : List Piece) :
    encoded (.token m :: ps) =
      '[' :: '$' :: (m.mention ++ ']' :: '(' :: (m.path ++ ')' :: encoded ps)) := by
  rw [encoded, List.flatMap_cons, Piece.encoded, link]
  simp [encoded]

@[simp] theorem bound_char (c : Char) (ps : List Piece) : bound (.char c :: ps) = bound ps := rfl

@[simp] theorem bound_token (m : LinkedMention) (ps : List Piece) :
    bound (.token m :: ps) = m :: bound ps := rfl

theorem encodeFrom_of_cons {queues : Queues} {ch : Char} {rest path : Str} {paths : List Str}
    (h : pathsAt queues ch rest = path :: paths) :
    encodeFrom queues (ch :: rest) =
      link ⟨rest.takeWhile isMentionNameChar, path⟩ ++
        encodeFrom (Function.update queues (rest.takeWhile isMentionNameChar) paths)
          (rest.dropWhile isMentionNameChar) := by
  rw [encodeFrom]
  simp only [h]

theorem encodeFrom_of_nil {queues : Queues} {ch : Char} {rest : Str}
    (h : pathsAt queues ch rest = []) :
    encodeFrom queues (ch :: rest) = ch :: encodeFrom queues rest := by
  rw [encodeFrom]
  simp only [h]

theorem pieces_of_cons {queues : Queues} {ch : Char} {rest path : Str} {paths : List Str}
    (h : pathsAt queues ch rest = path :: paths) :
    pieces queues (ch :: rest) =
      .token ⟨rest.takeWhile isMentionNameChar, path⟩ ::
        pieces (Function.update queues (rest.takeWhile isMentionNameChar) paths)
          (rest.dropWhile isMentionNameChar) := by
  rw [pieces]
  simp only [h]

theorem pieces_of_nil {queues : Queues} {ch : Char} {rest : Str}
    (h : pathsAt queues ch rest = []) :
    pieces queues (ch :: rest) = .char ch :: pieces queues rest := by
  rw [pieces]
  simp only [h]

theorem encodeFrom_eq (queues : Queues) (text : Str) :
    encodeFrom queues text = encoded (pieces queues text) := by
  induction queues, text using encodeFrom.induct with
  | case1 queues => simp [encodeFrom, pieces, encoded]
  | case2 queues ch rest path paths hpaths name ih =>
    rw [encodeFrom_of_cons hpaths, pieces_of_cons hpaths, ih]
    rfl
  | case3 queues ch rest hpaths ih =>
    rw [encodeFrom_of_nil hpaths, pieces_of_nil hpaths, ih, encoded_char]

theorem eq_dollar_of_pathsAt {queues : Queues} {ch : Char} {rest path : Str} {paths : List Str}
    (h : pathsAt queues ch rest = path :: paths) :
    (ch = '$' ∧ rest.takeWhile isMentionNameChar ≠ []) ∧
      queues (rest.takeWhile isMentionNameChar) = path :: paths := by
  rw [pathsAt] at h
  split at h
  · next hch => exact ⟨hch, h⟩
  · cases h

theorem takeWhile_append_dropWhile (text : Str) :
    text.takeWhile isMentionNameChar ++ text.dropWhile isMentionNameChar = text :=
  List.takeWhile_append_dropWhile

theorem plain_pieces (queues : Queues) (text : Str) : plain (pieces queues text) = text := by
  induction queues, text using encodeFrom.induct with
  | case1 queues => simp [pieces, plain]
  | case2 queues ch rest path paths hpaths name ih =>
    obtain ⟨⟨rfl, -⟩, -⟩ := eq_dollar_of_pathsAt hpaths
    rw [pieces_of_cons hpaths, plain_token, ih]
    exact congrArg ('$' :: ·) (takeWhile_append_dropWhile rest)
  | case3 queues ch rest hpaths ih =>
    rw [pieces_of_nil hpaths, plain_char, ih]

/-- A name, as the scan for one finds it. -/
def IsName (name : Str) : Prop := name ≠ [] ∧ ∀ c ∈ name, isMentionNameChar c = true

theorem isName_of_mem_bound {queues : Queues} {text : Str} {m : LinkedMention}
    (h : m ∈ bound (pieces queues text)) : IsName m.mention := by
  induction queues, text using encodeFrom.induct with
  | case1 queues => 
    rw [pieces] at h
    cases h
  | case2 queues ch rest path paths hpaths name ih =>
    rw [pieces_of_cons hpaths, bound_token] at h
    rcases List.mem_cons.1 h with rfl | h
    · exact ⟨(eq_dollar_of_pathsAt hpaths).1.2, fun c hc => List.mem_takeWhile_imp hc⟩
    · exact ih h
  | case3 queues ch rest hpaths ih =>
    rw [pieces_of_nil hpaths] at h
    exact ih h

/-! ## The tokens and the pieces -/

theorem mentionsByName_apply (mentions : List LinkedMention) (name : Str) :
    mentionsByName mentions name =
      (mentions.filter fun m => m.mention == name).map LinkedMention.path := by
  rw [mentionsByName, Queues.ofList_apply, List.filter_map, List.map_map]
  refine congrArg (List.map _) (List.filter_congr fun m _ => ?_)
  exact (beq_eq_decide m.mention name).symm

theorem tokens_append {n : Str} (hname : ∀ c ∈ n, isMentionNameChar c = true) (rest : Str) :
    tokens (n ++ rest) = tokens rest := by
  induction n with
  | nil => rfl
  | cons c name ih =>
    obtain ⟨hc, htail⟩ := List.forall_mem_cons.1 hname
    have hdollar : c ≠ '$' := by
      rintro rfl
      exact absurd hc (by decide)
    rw [List.cons_append, tokens, if_neg fun h => hdollar h.1, ih htail]

theorem find?_of_mentionsByName_nil {mentions : List LinkedMention} {name : Str}
    (h : mentionsByName mentions name = []) :
    mentions.find? (fun m => m.mention == name) = none := by
  rw [mentionsByName_apply, List.map_eq_nil_iff] at h
  rw [← List.head?_filter, h]
  rfl

theorem find?_of_mentionsByName_cons {mentions : List LinkedMention} {name path : Str}
    {paths : List Str} (h : mentionsByName mentions name = path :: paths) :
    mentions.find? (fun m => m.mention == name) = some ⟨name, path⟩ := by
  rw [mentionsByName_apply] at h
  obtain ⟨m, ms, hfilter, rfl, -⟩ := List.map_eq_cons_iff.1 h
  have hm : m ∈ mentions.filter fun m => m.mention == name := by
    rw [hfilter]
    exact List.mem_cons_self
  obtain rfl := beq_iff_eq.1 (List.mem_filter.1 hm).2
  rw [← List.head?_filter, hfilter, List.head?_cons]

theorem mentionsByName_eraseP {mentions : List LinkedMention} {name path : Str}
    {paths : List Str} (h : mentionsByName mentions name = path :: paths) :
    mentionsByName (mentions.eraseP fun m => m.mention == name) =
      Function.update (mentionsByName mentions) name paths := by
  obtain ⟨before, after, rfl, -, hbefore, herase⟩ :=
    eraseP_of_find? (find?_of_mentionsByName_cons h)
  have hnone : before.filter (fun m => m.mention == name) = [] := by
    rw [List.filter_eq_nil_iff]
    intro m hm hname
    exact hbefore m hm (beq_iff_eq.1 hname)
  rw [herase]
  funext other
  by_cases hother : other = name
  · subst hother
    rw [mentionsByName_apply, List.filter_append, hnone, List.filter_cons] at h
    rw [Function.update_self, mentionsByName_apply, List.filter_append, hnone]
    simpa using h
  · rw [Function.update_of_ne hother, mentionsByName_apply, mentionsByName_apply,
      List.filter_append, List.filter_append,
      List.filter_cons_of_neg (by simpa using Ne.symm hother)]

/-- The pieces bind the tokens of the text, one after another. -/
theorem bound_pieces (text : Str) (mentions : List LinkedMention) :
    bound (pieces (mentionsByName mentions) text) = boundMentions text mentions := by
  generalize hqueues : mentionsByName mentions = queues
  induction queues, text using encodeFrom.induct generalizing mentions with
  | case1 queues =>
    rw [pieces]
    rfl
  | case2 queues ch rest path paths hpaths name ih =>
    obtain ⟨hch, hqueue⟩ := eq_dollar_of_pathsAt hpaths
    rw [← hqueues] at hqueue
    have herase := mentionsByName_eraseP hqueue
    have hskip := tokens_append (n := name) (fun c hc => List.mem_takeWhile_imp hc)
      (rest.dropWhile isMentionNameChar)
    rw [takeWhile_append_dropWhile] at hskip
    rw [hqueues] at herase
    rw [pieces_of_cons hpaths, bound_token, ih _ herase, boundMentions, boundMentions, tokens,
      if_pos hch, bindTokens, find?_of_mentionsByName_cons hqueue, hskip]
  | case3 queues ch rest hpaths ih =>
    rw [pieces_of_nil hpaths, bound_char, ih mentions hqueues, boundMentions, boundMentions, tokens]
    split
    · next hch =>
      rw [pathsAt, if_pos hch, ← hqueues] at hpaths
      rw [bindTokens, find?_of_mentionsByName_nil hpaths]
    · rfl

/-! ## Reading back -/

/-- The path of a mention can be read from its link, and names a tool. -/
structure LinkedMention.Readable (m : LinkedMention) : Prop where
  name : isCommonEnvVar m.mention = false
  tool : isToolPath m.path = true
  closed : ')' ∉ m.path
  trimmed : Str.trim m.path = m.path

/-- What stands in parentheses that are opened before some pieces: the text up to the first one
that closes them, which a path may have too. -/
def linkContent : List Piece → Option Str
  | [] => none
  | .char c :: rest => if c = ')' then some [] else (linkContent rest).map (c :: ·)
  | .token m :: _ => some ('[' :: '$' :: (m.mention ++ ']' :: '(' :: m.path.takeWhile (· != ')')))

/-- The pieces after a bracket of the text go on as a link to a tool does. -/
def CompletesLink (after : List Piece) : Prop :=
  ∃ (name space content : Str) (tail : List Piece),
    after = ('$' :: (name ++ ']' :: (space ++ ['(']))).map Piece.char ++ tail ∧ IsName name ∧
    (∀ c ∈ space, isAsciiWhitespace c = true) ∧ linkContent tail = some content ∧
    isCommonEnvVar name = false ∧ isToolPath (Str.trim content) = true

/-- No bracket of the text is the start of a link. -/
def NoStrayLink (ps : List Piece) : Prop :=
  ∀ after, Piece.char '[' :: after <:+ ps → ¬ CompletesLink after

theorem noStrayLink_cons {p : Piece} {ps : List Piece} :
    NoStrayLink (p :: ps) ↔ (p = .char '[' → ¬ CompletesLink ps) ∧ NoStrayLink ps := by
  constructor
  · intro h
    refine ⟨?_, fun after hafter => h after (hafter.trans (List.suffix_cons p ps))⟩
    rintro rfl
    exact h ps List.suffix_rfl
  · rintro ⟨hhead, htail⟩ after hafter
    rcases List.suffix_cons_iff.1 hafter with heq | hsuffix
    · obtain ⟨rfl, rfl⟩ := List.cons.inj heq
      exact hhead rfl
    · exact htail after hsuffix

/-- Text without a bracket is text of the message. -/
theorem encoded_eq_append {ps : List Piece} {s t : Str} (h : encoded ps = s ++ t) (hs : '[' ∉ s) :
    ∃ tail, ps = s.map Piece.char ++ tail ∧ encoded tail = t := by
  induction s generalizing ps with
  | nil => exact ⟨ps, rfl, h⟩
  | cons c s ih =>
    rw [List.mem_cons, not_or] at hs
    cases ps with
    | nil => cases h
    | cons p ps =>
      cases p with
      | char d =>
        rw [encoded_char, List.cons_append] at h
        obtain ⟨rfl, htail⟩ := List.cons.inj h
        obtain ⟨tail, rfl, ht⟩ := ih htail hs.2
        exact ⟨tail, rfl, ht⟩
      | token m =>
        rw [encoded_token, List.cons_append] at h
        exact absurd (List.cons.inj h).1 hs.1

theorem encoded_append (ps qs : List Piece) : encoded (ps ++ qs) = encoded ps ++ encoded qs :=
  List.flatMap_append

theorem encoded_map_char (s : Str) : encoded (s.map Piece.char) = s := by
  induction s with
  | nil => rfl
  | cons c s ih => rw [List.map_cons, encoded_char, ih]

theorem notMem_of_isName {name : Str} (h : IsName name) {c : Char}
    (hc : isMentionNameChar c = false) : c ∉ name := by
  intro hmem
  rw [h.2 c hmem] at hc
  cases hc

/-- A path that closes the parentheses does so with its first part. -/
theorem exists_append_close (path rest : Str) :
    ∃ after, path ++ ')' :: rest = path.takeWhile (· != ')') ++ ')' :: after := by
  have hpath := List.takeWhile_append_dropWhile (p := (· != ')')) (l := path)
  cases hdrop : path.dropWhile (· != ')') with
  | nil =>
    rw [hdrop, List.append_nil] at hpath
    exact ⟨rest, by rw [hpath]⟩
  | cons c after =>
    have hhead := List.head?_dropWhile_not (· != ')') path
    rw [hdrop] at hhead
    obtain rfl : c = ')' := by simpa using hhead
    refine ⟨after ++ ')' :: rest, ?_⟩
    rw [hdrop] at hpath
    rw [← List.cons_append, ← List.append_assoc, hpath]

theorem notMem_takeWhile (path : Str) : ')' ∉ path.takeWhile (· != ')') := by
  intro hmem
  simpa using List.mem_takeWhile_imp hmem

/-- The content of the parentheses is what is read up to the first one that closes. -/
theorem linkContent_eq_some {ps : List Piece} (hnames : ∀ m ∈ bound ps, IsName m.mention)
    {content : Str} :
    linkContent ps = some content ↔
      ∃ after, encoded ps = content ++ ')' :: after ∧ ')' ∉ content := by
  induction ps generalizing content with
  | nil => simp [linkContent, encoded]
  | cons p ps ih =>
    cases p with
    | char c =>
      rw [linkContent, encoded_char]
      split
      · next hc =>
        subst hc
        constructor
        · rintro ⟨⟩
          exact ⟨encoded ps, rfl, List.not_mem_nil⟩
        · rintro ⟨after, htext, hcontent⟩
          have hnil : ([] : Str) ++ ')' :: encoded ps = content ++ ')' :: after := htext
          rw [((Str.append_cons_inj List.not_mem_nil hcontent).1 hnil).1]
      · next hc =>
        rw [Option.map_eq_some_iff]
        constructor
        · rintro ⟨inside, hinside, rfl⟩
          obtain ⟨after, htext, hmem⟩ := (ih hnames).1 hinside
          exact ⟨after, by rw [htext, List.cons_append], by simp [Ne.symm hc, hmem]⟩
        · rintro ⟨after, htext, hcontent⟩
          cases content with
          | nil => exact absurd (List.cons.inj htext).1 hc
          | cons d inside =>
            obtain ⟨rfl, hrest⟩ := List.cons.inj htext
            exact ⟨inside, (ih hnames).2 ⟨after, hrest, fun h => hcontent (.tail _ h)⟩, rfl⟩
    | token m =>
      obtain ⟨hname, -⟩ := List.forall_mem_cons.1 hnames
      obtain ⟨rest, hrest⟩ := exists_append_close m.path (encoded ps)
      have hclose :
          ')' ∉ '[' :: '$' :: (m.mention ++ ']' :: '(' :: m.path.takeWhile (· != ')')) := by
        simp only [List.mem_cons, List.mem_append, not_or]
        exact ⟨by decide, by decide, notMem_of_isName hname (by decide), by decide, by decide,
          notMem_takeWhile m.path⟩
      have htext : encoded (.token m :: ps) =
          '[' :: '$' :: (m.mention ++ ']' :: '(' :: m.path.takeWhile (· != ')')) ++
            ')' :: rest := by
        rw [encoded_token, hrest]
        simp
      rw [linkContent, htext, Option.some_inj]
      constructor
      · rintro rfl
        exact ⟨rest, rfl, hclose⟩
      · rintro ⟨after, hcut, hcontent⟩
        exact ((Str.append_cons_inj hclose hcontent).1 hcut).1

theorem isToolPath_nil : isToolPath [] = false := by decide

/-- A bracket is read as a link exactly if the pieces after it complete one. -/
theorem completesLink_iff {ps : List Piece} (hnames : ∀ m ∈ bound ps, IsName m.mention) :
    CompletesLink ps ↔ ∃ link, toolLinkAt '[' (encoded ps) = some link := by
  constructor
  · rintro ⟨name, space, content, tail, rfl, hname, hspace, hcontent, henv, htool⟩
    have hbound (s : Str) : bound (s.map Piece.char ++ tail) = bound tail := by
      rw [bound, List.filterMap_append, List.filterMap_eq_nil_iff.2, List.nil_append]
      · rfl
      · intro p hp
        obtain ⟨c, -, rfl⟩ := List.mem_map.1 hp
        rfl
    rw [hbound] at hnames
    obtain ⟨after, htail, hclose⟩ := (linkContent_eq_some hnames).1 hcontent
    refine ⟨(name, Str.trim content, after), toolLinkAt_eq_some.2 ⟨rfl, ?_, henv, htool⟩⟩
    refine parseLinkedToolMention_eq_some.2 ⟨space, content, ?_, hname.1, hname.2, hspace, hclose,
      rfl, ?_⟩
    · rw [encoded_append, encoded_map_char, htail]
      simp
    · intro hnil
      rw [hnil, isToolPath_nil] at htool
      cases htool
  · rintro ⟨⟨name, path, after⟩, hlink⟩
    obtain ⟨-, hparse, henv, htool⟩ := toolLinkAt_eq_some.1 hlink
    obtain ⟨space, content, htext, hname, hchars, hspace, hclose, rfl, -⟩ :=
      parseLinkedToolMention_eq_some.1 hparse
    have hsplit : encoded ps =
        ('$' :: (name ++ ']' :: (space ++ ['(']))) ++ (content ++ ')' :: after) := by
      rw [htext]
      simp
    have hbracket : '[' ∉ '$' :: (name ++ ']' :: (space ++ ['('])) := by
      have hspace' : '[' ∉ space := fun hmem => absurd (hspace _ hmem) (by decide)
      simp only [List.mem_cons, List.mem_append, List.not_mem_nil, not_or]
      exact ⟨by decide, notMem_of_isName ⟨hname, hchars⟩ (by decide), by decide, hspace', by decide,
        not_false⟩
    obtain ⟨tail, rfl, htail⟩ := encoded_eq_append hsplit hbracket
    refine ⟨name, space, content, tail, rfl, ⟨hname, hchars⟩, hspace, ?_, henv, htool⟩
    refine (linkContent_eq_some fun m hm => hnames m ?_).2 ⟨after, htail, hclose⟩
    rw [bound, List.filterMap_append]
    exact List.mem_append_right _ hm

theorem toolLinkAt_link {m : LinkedMention} (hname : IsName m.mention) {rest after : Str} :
    toolLinkAt '[' ('$' :: (m.mention ++ ']' :: '(' :: (m.path ++ ')' :: rest))) =
      some (m.mention, m.path, after) ↔ m.Readable ∧ rest = after := by
  rw [toolLinkAt_eq_some, parseLinkedToolMention_eq_some]
  constructor
  · rintro ⟨-, ⟨space, content, htext, -, -, hspace, hclose, htrim, -⟩, henv, htool⟩
    have hpath : ')' ∉ m.path := by
      rw [← htrim]
      exact fun hmem => hclose (Str.mem_of_mem_trim hmem)
    have hrest := List.append_cancel_left (List.cons.inj htext).2
    cases space with
    | nil =>
      obtain ⟨hcontent, hafter⟩ :=
        (Str.append_cons_inj hpath hclose).1 (List.cons.inj (List.cons.inj hrest).2).2
      exact ⟨⟨henv, htool, hpath, by rwa [← hcontent] at htrim⟩, hafter⟩
    | cons c space =>
      obtain ⟨rfl, -⟩ := List.cons.inj (List.cons.inj hrest).2
      exact absurd (hspace _ List.mem_cons_self) (by decide)
  · rintro ⟨⟨henv, htool, hpath, htrim⟩, rfl⟩
    refine ⟨rfl, ⟨[], m.path, rfl, hname.1, hname.2, ?_, hpath, htrim, ?_⟩, henv, htool⟩
    · exact fun c hc => absurd hc List.not_mem_nil
    · intro hnil
      rw [hnil, isToolPath_nil] at htool
      cases htool

theorem DecodedHistoryText.eq_mk {d : DecodedHistoryText} {text : Str}
    {mentions : List LinkedMention} :
    d = ⟨text, mentions⟩ ↔ d.text = text ∧ d.mentions = mentions := by
  cases d
  rw [DecodedHistoryText.mk.injEq]

/-- What is written for some pieces is read back as they are exactly if each link can be read and
no bracket of the text becomes one. -/
theorem decodeFrom_encoded_iff {ps : List Piece} (hnames : ∀ m ∈ bound ps, IsName m.mention) :
    decodeFrom (encoded ps) = ⟨plain ps, bound ps⟩ ↔
      (∀ m ∈ bound ps, m.Readable) ∧ NoStrayLink ps := by
  induction ps with
  | nil =>
    have hnil : decodeFrom (encoded []) = ⟨plain [], bound []⟩ := by
      simp [encoded, decodeFrom, plain, bound]
    have hstray : NoStrayLink [] := fun after hafter => by
      cases List.suffix_nil.1 hafter
    simp [hnil, hstray, bound]
  | cons p ps ih =>
    cases p with
    | char c =>
      have htail : ∀ m ∈ bound ps, IsName m.mention := hnames
      have ih := ih htail
      rw [noStrayLink_cons, encoded_char, plain_char, bound_char]
      rw [DecodedHistoryText.eq_mk] at ih ⊢
      cases hlink : toolLinkAt c (encoded ps) with
      | none =>
        have hcomplete : Piece.char c = .char '[' → ¬ CompletesLink ps := by
          rintro ⟨⟩ hps
          obtain ⟨link, hsome⟩ := (completesLink_iff htail).1 hps
          rw [hlink] at hsome
          cases hsome
        rw [decodeFrom_of_none hlink, List.cons.injEq, eq_self, true_and, ih,
          iff_true_intro hcomplete, true_and]
      | some link =>
        obtain ⟨name, path, after⟩ := link
        obtain ⟨rfl, -⟩ := toolLinkAt_eq_some.1 hlink
        have hcomplete : CompletesLink ps := (completesLink_iff htail).2 ⟨_, hlink⟩
        rw [decodeFrom_of_link hlink]
        constructor
        · rintro ⟨htext, -⟩
          exact absurd (List.cons.inj htext).1 (by decide)
        · rintro ⟨-, hstray, -⟩
          exact absurd hcomplete (hstray rfl)
    | token m =>
      obtain ⟨hname, hrest⟩ := List.forall_mem_cons.1 hnames
      have ih := ih hrest
      have hchar : Piece.token m = .char '[' → ¬ CompletesLink ps := fun h => by cases h
      rw [noStrayLink_cons, encoded_token, plain_token, bound_token, List.forall_mem_cons]
      rw [DecodedHistoryText.eq_mk] at ih ⊢
      constructor
      · rintro ⟨htext, hmentions⟩
        cases hlink : toolLinkAt '[' ('$' :: (m.mention ++ ']' :: '(' ::
            (m.path ++ ')' :: encoded ps))) with
        | none =>
          rw [decodeFrom_of_none hlink] at htext
          exact absurd (List.cons.inj htext).1 (by decide)
        | some link =>
          obtain ⟨name, path, after⟩ := link
          rw [decodeFrom_of_link hlink] at htext hmentions
          -- the first mention that is read is the one that was written
          obtain ⟨rfl, hothers⟩ := List.cons.inj hmentions
          obtain ⟨hreadable, rfl⟩ := (toolLinkAt_link hname).1 hlink
          have hplain := List.append_cancel_left (List.cons.inj htext).2
          obtain ⟨hall, hstray⟩ := ih.1 ⟨hplain, hothers⟩
          exact ⟨⟨hreadable, hall⟩, hchar, hstray⟩
      · rintro ⟨⟨hreadable, hall⟩, -, hstray⟩
        obtain ⟨htext, hmentions⟩ := ih.2 ⟨hall, hstray⟩
        rw [decodeFrom_of_link ((toolLinkAt_link hname).2 ⟨hreadable, rfl⟩)]
        exact ⟨congrArg (fun t => '$' :: (m.mention ++ t)) htext, congrArg (m :: ·) hmentions⟩

/-- Without mentions nothing is a link. -/
theorem encodeFrom_mentionsByName_nil (text : Str) :
    encodeFrom (mentionsByName []) text = text := by
  induction text with
  | nil => rw [encodeFrom]
  | cons ch rest ih =>
    have hnone : pathsAt (mentionsByName []) ch rest = [] := ite_self _
    rw [encodeFrom_of_nil hnone, ih]

theorem encodeHistoryMentions_eq (text : Str) (mentions : List LinkedMention) :
    encodeHistoryMentions text mentions = encoded (pieces (mentionsByName mentions) text) := by
  rw [encodeHistoryMentions, ← encodeFrom_eq]
  split
  · next h =>
    rcases h with rfl | rfl
    · exact (encodeFrom_mentionsByName_nil text).symm
    · rw [encodeFrom]
  · rfl

/-- A message is read back with the mentions that were bound, which are all of them if their names
are tokens in their order, exactly if each bound mention can be read from its link and no bracket
of the message becomes the start of one. -/
theorem decode_encode_iff (text : Str) (mentions : List LinkedMention) :
    ((mentions.map LinkedMention.mention).Sublist (tokens text) →
      (boundMentions text mentions).Perm mentions) ∧
    (decodeHistoryMentions (encodeHistoryMentions text mentions) =
        ⟨text, boundMentions text mentions⟩ ↔
      (∀ m ∈ boundMentions text mentions, m.Readable) ∧
        NoStrayLink (pieces (mentionsByName mentions) text)) := by
  refine ⟨boundMentions_perm, ?_⟩
  have hnames : ∀ m ∈ bound (pieces (mentionsByName mentions) text), IsName m.mention :=
    fun m hm => isName_of_mem_bound hm
  have hpieces := decodeFrom_encoded_iff hnames
  rwa [plain_pieces, bound_pieces, ← encodeHistoryMentions_eq] at hpieces

theorem toolLinkAt_of_ne {ch : Char} (h : ch ≠ '[') (rest : Str) : toolLinkAt ch rest = none :=
  if_neg h

theorem decodeFrom_of_notMem {text : Str} (h : '[' ∉ text) : decodeFrom text = ⟨text, []⟩ := by
  induction text with
  | nil => rw [decodeFrom]
  | cons ch rest ih =>
    rw [List.mem_cons, not_or] at h
    rw [decodeFrom_of_none (toolLinkAt_of_ne (Ne.symm h.1) rest), ih h.2]

/-- A skill that is kept in a directory with parentheses in its name. -/
def oldSkill : LinkedMention := ⟨"a", "/tmp/skills (old)/SKILL.md"⟩

/-- The path is cut at its first parenthesis that closes, and the link stays in the text. -/
theorem decode_encode_oldSkill :
    boundMentions "$a" [oldSkill] = [oldSkill] ∧
    decodeHistoryMentions (encodeHistoryMentions "$a" [oldSkill]) =
      ⟨"[$a](/tmp/skills (old)/SKILL.md)", []⟩ ∧
    decodeHistoryMentions (encodeHistoryMentions "$a" [oldSkill]) ≠ ⟨"$a", [oldSkill]⟩ := by
  have hencode : encodeHistoryMentions "$a" [oldSkill] =
      '[' :: ("$a](/tmp/skills (old)/SKILL.md)" : Str) := by
    have hpaths : pathsAt (mentionsByName [oldSkill]) '$' ['a'] = [oldSkill.path] := by decide
    rw [encodeHistoryMentions, if_neg (by decide)]
    have hend : encodeFrom (Function.update (mentionsByName [oldSkill]) "a" []) [] = [] := by
      rw [encodeFrom]
    exact (encodeFrom_of_cons hpaths).trans (congrArg (link oldSkill ++ ·) hend)
  have hdecode : decodeHistoryMentions (encodeHistoryMentions "$a" [oldSkill]) =
      ⟨"[$a](/tmp/skills (old)/SKILL.md)", []⟩ := by
    have hnone : toolLinkAt '[' ("$a](/tmp/skills (old)/SKILL.md)" : Str) = none := by decide
    rw [hencode, decodeHistoryMentions, decodeFrom_of_none hnone,
      decodeFrom_of_notMem (by decide)]
    rfl
  exact ⟨by decide, hdecode, by rw [hdecode]; decide⟩

end SheriMl.MentionCodec
