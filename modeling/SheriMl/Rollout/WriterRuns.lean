import SheriMl.Rollout.Writer

/-!
# What a rollout file holds

Without an I/O error the file of a new session does not exist before the first `Persist`, and from
then on has the line of the session's metadata and the lines of all items added, in order
(`rolloutWriter_spec`). A resumed session adds the lines of its items to the file
(`open_of_run_resume`).
-/

namespace SheriMl.RolloutRecorder

open State (ThreadMetadataBuilder)
open ThreadList (PathBuf SessionMetaLine)
open Transition

variable {ι : Type}

/-! ## Contents -/

structure RolloutLine (ι : Type) where
  timestamp : Str
  item : ι

def rolloutText (toJson : Str → ι → Str) (lines : List (RolloutLine ι)) : Str :=
  lines.flatMap fun line => toJson line.timestamp line.item ++ ['\n']

/-- After an old text come the lines of these items, in order and nothing else. -/
def Holds (toJson : Str → ι → Str) (old : Str) (items : List ι) (content : Str) : Prop :=
  ∃ lines : List (RolloutLine ι),
    lines.map RolloutLine.item = items ∧ content = old ++ rolloutText toJson lines

def RolloutCmd.items : RolloutCmd ι → List ι
  | .addItems items => items
  | .persist _ | .flush _ | .shutdown _ => []

def RolloutCmd.acks : RolloutCmd ι → List Nat
  | .addItems _ => []
  | .persist ack | .flush ack | .shutdown ack => [ack]

variable {toJson : Str → ι → Str} {old content content' : Str} {items items' : List ι}

theorem Holds.nil : Holds toJson old [] old := ⟨[], rfl, (List.append_nil old).symm⟩

theorem Holds.append (h : Holds toJson old items content)
    (h' : Holds toJson content items' content') : Holds toJson old (items ++ items') content' := by
  obtain ⟨lines, rfl, rfl⟩ := h
  obtain ⟨lines', rfl, rfl⟩ := h'
  refine ⟨lines ++ lines', List.map_append, ?_⟩
  rw [rolloutText, rolloutText, rolloutText, List.flatMap_append, List.append_assoc]

theorem writeLine_of_ok {io : LineIo} (h : io.failed = none) (json : Str) :
    writeLine io json content = (content ++ (json ++ ['\n']), true) := by
  rw [writeLine, h]

theorem writeRolloutItems_of_ok {io : Nat → LineIo} (h : ∀ n, (io n).failed = none)
    (toJson : Str → ι → Str) (content : Str) (n : Nat) (items : List ι) :
    ∃ content', writeRolloutItems toJson io content n items = (content', true) ∧
      Holds toJson content items content' := by
  induction items generalizing content n with
  | nil => exact ⟨content, rfl, .nil⟩
  | cons item items ih =>
    obtain ⟨content', hwrite, hrest⟩ :=
      ih (content ++ (toJson (io n).timestamp item ++ ['\n'])) (n + 1)
    refine ⟨content', ?_, ?_⟩
    · rw [writeRolloutItems, writeLine_of_ok (h n)]
      exact hwrite
    · have hline : Holds toJson content [item]
          (content ++ (toJson (io n).timestamp item ++ ['\n'])) :=
        ⟨[⟨(io n).timestamp, item⟩], rfl, by rw [rolloutText, List.flatMap_singleton]⟩
      exact hline.append hrest

/-! ## Writes to the open file -/

/-- Nothing fails. -/
structure Io.Clean (io : Io) : Prop where
  opens : io.opens = true
  metaLine : io.metaLine.failed = none
  line : ∀ n, (io.line n).failed = none
  flushes : io.flushes = true

namespace RolloutWriter

variable {ctx : Context ι} {io : Io} {path : PathBuf} {s t u : RolloutWriter ι}

/-- The lines of items come to the end of the open file, and the rest stays. -/
structure Wrote (toJson : Str → ι → Str) (path : PathBuf) (items : List ι)
    (s t : RolloutWriter ι) : Prop where
  writer : t.writer = s.writer
  sessionMeta : t.sessionMeta = s.sessionMeta
  bufferedItems : t.bufferedItems = s.bufferedItems
  acks : t.acks = s.acks
  frame : ∀ p, p ≠ path → t.disk p = s.disk p
  content : ∃ content, t.disk path = some content ∧
    Holds toJson ((s.disk path).getD []) items content

theorem Wrote.trans (h : Wrote toJson path items s t) (h' : Wrote toJson path items' t u) :
    Wrote toJson path (items ++ items') s u := by
  obtain ⟨content, hcontent, hholds⟩ := h.content
  obtain ⟨content', hcontent', hholds'⟩ := h'.content
  refine ⟨h'.writer.trans h.writer, h'.sessionMeta.trans h.sessionMeta,
    h'.bufferedItems.trans h.bufferedItems, h'.acks.trans h.acks, ?_, content', hcontent', ?_⟩
  · intro p hp
    exact (h'.frame p hp).trans (h.frame p hp)
  · rw [hcontent, Option.getD_some] at hholds'
    exact hholds.append hholds'

theorem writeItems_of_ok {lineIo : Nat → LineIo} (hok : ∀ n, (lineIo n).failed = none)
    (hwriter : s.writer = some path) (ctx : Context ι) (items : List ι) :
    ∃ t, s.writeItems ctx lineIo items = (t, true) ∧ Wrote ctx.items.toJson path items s t := by
  obtain ⟨content, hwrite, hholds⟩ := writeRolloutItems_of_ok hok ctx.items.toJson
    ((s.disk path).getD []) 0 items
  refine ⟨{ s with disk := Function.update s.disk path (some content) }, ?_, ?_⟩
  · simp only [writeItems, hwriter, hwrite]
  · refine ⟨rfl, rfl, rfl, rfl, ?_, content, Function.update_self .., hholds⟩
    intro p hp
    exact Function.update_of_ne hp ..

/-- The state database is apart from the file. -/
theorem exists_applyRolloutItems (ctx : Context ι) (io : Io) (items : List ι)
    (s : RolloutWriter ι) : ∃ batches, s.applyRolloutItems ctx io items = { s with batches } := by
  rw [applyRolloutItems]
  split
  · dsimp only
    split
    · exact ⟨s.batches, rfl⟩
    · exact ⟨_, rfl⟩
  · exact ⟨s.batches, rfl⟩

theorem Wrote.applyRolloutItems (h : Wrote toJson path items s t) :
    Wrote toJson path items s (t.applyRolloutItems ctx io items') := by
  obtain ⟨batches, heq⟩ := exists_applyRolloutItems ctx io items' t
  rw [heq]
  exact ⟨h.writer, h.sessionMeta, h.bufferedItems, h.acks, h.frame, h.content⟩

theorem writeAndReconcileItems_of_clean (hio : io.Clean) (hwriter : s.writer = some path)
    (ctx : Context ι) (items : List ι) :
    ∃ t, s.writeAndReconcileItems ctx io items = (t, true) ∧
      Wrote ctx.items.toJson path items s t := by
  obtain ⟨t, hwrite, hwrote⟩ := writeItems_of_ok hio.line hwriter ctx items
  have hbuilder : Wrote ctx.items.toJson path items s (t.setBuilderPath ctx) :=
    ⟨hwrote.writer, hwrote.sessionMeta, hwrote.bufferedItems, hwrote.acks, hwrote.frame,
      hwrote.content⟩
  refine ⟨(t.setBuilderPath ctx).applyRolloutItems ctx io items, ?_, hbuilder.applyRolloutItems⟩
  rw [writeAndReconcileItems, hwrite, andThen, if_pos rfl]

theorem exists_writeSessionMeta (ctx : Context ι) (io : Io) (sessionMeta : SessionMeta)
    (s : RolloutWriter ι) : ∃ stateBuilder, s.writeSessionMeta ctx io sessionMeta =
      andThen (({ s with stateBuilder } : RolloutWriter ι).writeItems ctx (fun _ => io.metaLine)
        [ctx.items.sessionMeta (sessionMeta.withGit io.git)]) fun s =>
          (s.applyRolloutItems ctx io [ctx.items.sessionMeta (sessionMeta.withGit io.git)], true) := by
  rw [writeSessionMeta]
  split
  · exact ⟨_, rfl⟩
  · exact ⟨s.stateBuilder, rfl⟩

theorem writeSessionMeta_of_clean (hio : io.Clean) (hwriter : s.writer = some path)
    (ctx : Context ι) (sessionMeta : SessionMeta) :
    ∃ t, s.writeSessionMeta ctx io sessionMeta = (t, true) ∧
      Wrote ctx.items.toJson path [ctx.items.sessionMeta (sessionMeta.withGit io.git)] s t := by
  obtain ⟨stateBuilder, heq⟩ := exists_writeSessionMeta ctx io sessionMeta s
  obtain ⟨t, hwrite, hwrote⟩ := writeItems_of_ok (s := { s with stateBuilder })
    (fun _ => hio.metaLine) hwriter ctx [ctx.items.sessionMeta (sessionMeta.withGit io.git)]
  have hwrote' : Wrote ctx.items.toJson path
      [ctx.items.sessionMeta (sessionMeta.withGit io.git)] s t :=
    ⟨hwrote.writer, hwrote.sessionMeta, hwrote.bufferedItems, hwrote.acks, hwrote.frame,
      hwrote.content⟩
  refine ⟨t.applyRolloutItems ctx io [ctx.items.sessionMeta (sessionMeta.withGit io.git)], ?_,
    hwrote'.applyRolloutItems⟩
  rw [heq, hwrite, andThen, if_pos rfl]

/-! ## Commands -/

/-- A new session before its first `Persist`: the disk is as it was. -/
structure Deferred (disk : PathBuf → Option Str) (logFileInfo : LogFileInfo)
    (sessionMeta : SessionMeta) (items : List ι) (acks : List Nat) (s : RolloutWriter ι) :
    Prop where
  disk : s.disk = disk
  writer : s.writer = none
  deferredLogFileInfo : s.deferredLogFileInfo = some logFileInfo
  sessionMeta : s.sessionMeta = some sessionMeta
  bufferedItems : s.bufferedItems = items
  acks : s.acks = acks
  running : s.running = true

/-- The lines of items come after what the open file held at first. -/
structure Opened (toJson : Str → ι → Str) (disk : PathBuf → Option Str) (path : PathBuf)
    (items : List ι) (acks : List Nat) (s : RolloutWriter ι) : Prop where
  writer : s.writer = some path
  sessionMeta : s.sessionMeta = none
  frame : ∀ p, p ≠ path → s.disk p = disk p
  content : ∃ content, s.disk path = some content ∧
    Holds toJson ((disk path).getD []) items content
  acks : s.acks = acks

/-- Between two commands, no item waits for an open file. -/
structure Open (toJson : Str → ι → Str) (disk : PathBuf → Option Str) (path : PathBuf)
    (items : List ι) (acks : List Nat) (s : RolloutWriter ι) : Prop
    extends Opened toJson disk path items acks s where
  bufferedItems : s.bufferedItems = []
  running : s.running = true

variable {disk : PathBuf → Option Str} {logFileInfo : LogFileInfo} {sessionMeta : SessionMeta}
  {acks : List Nat} {cmd : RolloutCmd ι}

theorem Deferred.ack (h : Deferred disk logFileInfo sessionMeta items acks s) (ack : Nat) :
    Deferred disk logFileInfo sessionMeta (items ++ []) (acks ++ [ack]) (s.ack ack) := by
  refine ⟨h.disk, h.writer, h.deferredLogFileInfo, h.sessionMeta, ?_, ?_, h.running⟩
  · rw [List.append_nil]
    exact h.bufferedItems
  · exact congrArg (· ++ [ack]) h.acks

theorem Deferred.process (h : Deferred disk logFileInfo sessionMeta items acks s)
    (hcmd : ∀ ack, cmd ≠ .persist ack) :
    Deferred disk logFileInfo sessionMeta (items ++ cmd.items) (acks ++ cmd.acks)
      (s.process ctx io cmd) := by
  cases cmd with
  | addItems added =>
    rw [RolloutWriter.process, RolloutCmd.items, RolloutCmd.acks, List.append_nil]
    by_cases hadded : added = []
    · subst hadded
      rw [List.append_nil]
      exact h
    · rw [if_neg (by simpa using hadded), if_pos (by rw [h.writer]; rfl)]
      refine ⟨h.disk, h.writer, h.deferredLogFileInfo, h.sessionMeta, ?_, h.acks, h.running⟩
      exact congrArg (· ++ added) h.bufferedItems
  | persist ack => exact absurd rfl (hcmd ack)
  | flush ack =>
    have hflush : ¬ (s.writer.isSome ∧ io.flushes = false) := by
      rw [h.writer]
      exact fun hs => Bool.false_ne_true hs.1
    rw [RolloutWriter.process, if_neg hflush]
    exact h.ack ack
  | shutdown ack => exact h.ack ack

theorem Opened.wrote (h : Opened toJson disk path items acks s)
    (hwrote : Wrote toJson path items' s t) :
    Opened toJson disk path (items ++ items') acks t := by
  obtain ⟨content, hcontent, hholds⟩ := h.content
  obtain ⟨content', hcontent', hholds'⟩ := hwrote.content
  rw [hcontent, Option.getD_some] at hholds'
  refine ⟨hwrote.writer.trans h.writer, hwrote.sessionMeta.trans h.sessionMeta, ?_,
    ⟨content', hcontent', hholds.append hholds'⟩, hwrote.acks.trans h.acks⟩
  intro p hp
  exact (hwrote.frame p hp).trans (h.frame p hp)

theorem Opened.writeBufferedItems (h : Opened ctx.items.toJson disk path items acks s)
    (hio : io.Clean) :
    ∃ t, s.writeBufferedItems ctx io = (t, true) ∧
      Open ctx.items.toJson disk path (items ++ s.bufferedItems) acks (finish (t, true)) := by
  rw [RolloutWriter.writeBufferedItems]
  by_cases hempty : s.bufferedItems = []
  · refine ⟨s, if_pos (by rw [hempty]; rfl), ⟨?_, hempty, rfl⟩⟩
    rw [hempty, List.append_nil]
    exact ⟨h.writer, h.sessionMeta, h.frame, h.content, h.acks⟩
  · obtain ⟨t, hwrite, hwrote⟩ :=
      writeAndReconcileItems_of_clean hio h.writer ctx s.bufferedItems
    have ht := h.wrote hwrote
    refine ⟨{ t with bufferedItems := [] }, ?_, ⟨?_, rfl, rfl⟩⟩
    · rw [if_neg (by simpa using hempty), hwrite, andThen, if_pos rfl]
    · exact ⟨ht.writer, ht.sessionMeta, ht.frame, ht.content, ht.acks⟩

theorem Open.ack (h : Open toJson disk path items acks s) (ack : Nat) :
    Open toJson disk path items (acks ++ [ack]) (s.ack ack) :=
  ⟨⟨h.writer, h.sessionMeta, h.frame, h.content, congrArg (· ++ [ack]) h.acks⟩, h.bufferedItems,
    h.running⟩

theorem Deferred.persist (h : Deferred disk logFileInfo sessionMeta items acks s) (hio : io.Clean)
    (ack : Nat) :
    Open ctx.items.toJson disk logFileInfo.path
      (ctx.items.sessionMeta (sessionMeta.withGit io.git) :: items) (acks ++ [ack])
      (s.process ctx io (.persist ack)) := by
  let opened : RolloutWriter ι := { s with
    deferredLogFileInfo := none
    disk := Function.update s.disk logFileInfo.path (some ((s.disk logFileInfo.path).getD []))
    writer := some logFileInfo.path
    sessionMeta := none }
  have hopened : Opened ctx.items.toJson disk logFileInfo.path [] acks opened := by
    refine ⟨rfl, rfl, ?_, ⟨_, Function.update_self .., ?_⟩, h.acks⟩
    · intro p hp
      rw [← h.disk]
      exact Function.update_of_ne hp ..
    · rw [h.disk]
      exact .nil
  obtain ⟨t, hmeta, hwrote⟩ :=
    writeSessionMeta_of_clean (s := opened) hio rfl ctx sessionMeta
  obtain ⟨u, hbuffered, hopen⟩ := (hopened.wrote hwrote).writeBufferedItems hio
  have hmaterialize : s.materialize ctx io = (u, true) := by
    simp only [materialize, h.deferredLogFileInfo, openLogFile, hio.opens, if_true, andThen,
      takeSessionMeta, h.sessionMeta]
    rw [← hbuffered]
    exact congrArg (fun r : RolloutWriter ι × Bool =>
      if r.2 = true then r.1.writeBufferedItems ctx io else r) hmeta
  rw [hwrote.bufferedItems] at hopen
  rw [RolloutWriter.process, if_pos (by rw [h.writer]; rfl), hmaterialize]
  have hitems : opened.bufferedItems = items := h.bufferedItems
  rw [hitems] at hopen
  exact hopen.ack ack

/-- From then on items are written as they come. -/
theorem Open.process (h : Open ctx.items.toJson disk path items acks s) (hio : io.Clean) :
    Open ctx.items.toJson disk path (items ++ cmd.items) (acks ++ cmd.acks)
      (s.process ctx io cmd) := by
  have hwriter : ¬ s.writer.isNone := by
    rw [h.writer]
    exact Bool.false_ne_true
  cases cmd with
  | addItems added =>
    rw [RolloutWriter.process, RolloutCmd.items, RolloutCmd.acks, List.append_nil]
    by_cases hadded : added = []
    · subst hadded
      rw [List.append_nil]
      exact h
    · obtain ⟨t, hwrite, hwrote⟩ :=
        writeAndReconcileItems_of_clean hio h.writer ctx added
      rw [if_neg (by simpa using hadded), if_neg hwriter, hwrite]
      have ht := h.toOpened.wrote hwrote
      exact ⟨⟨ht.writer, ht.sessionMeta, ht.frame, ht.content, ht.acks⟩,
        hwrote.bufferedItems.trans h.bufferedItems, rfl⟩
  | persist ack =>
    rw [RolloutWriter.process, if_neg hwriter, RolloutCmd.items, List.append_nil]
    exact h.ack ack
  | flush ack =>
    have hflush : ¬ (s.writer.isSome ∧ io.flushes = false) := by
      rw [hio.flushes]
      exact fun hs => Bool.false_ne_true hs.2.symm
    rw [RolloutWriter.process, if_neg hflush, RolloutCmd.items, List.append_nil]
    exact h.ack ack
  | shutdown ack =>
    rw [RolloutCmd.items, List.append_nil]
    exact h.ack ack

/-! ## Runs -/

variable {stateBuilder : Option ThreadMetadataBuilder} {labels : List (RolloutCmd ι × Io)}

def added (labels : List (RolloutCmd ι × Io)) : List ι := labels.flatMap fun label => label.1.items

/-- The acknowledgements that they wait for. -/
def acked (labels : List (RolloutCmd ι × Io)) : List Nat := labels.flatMap fun label => label.1.acks

def Persisted (labels : List (RolloutCmd ι × Io)) : Prop :=
  ∃ ack io, (RolloutCmd.persist ack, io) ∈ labels

/-- What the commands so far have made of a new session. -/
def Follows (ctx : Context ι) (disk : PathBuf → Option Str) (logFileInfo : LogFileInfo)
    (sessionMeta : SessionMeta) (past : List (RolloutCmd ι × Io)) (s : RolloutWriter ι) : Prop :=
  (¬ Persisted past ∧ Deferred disk logFileInfo sessionMeta (added past) (acked past) s) ∨
    (Persisted past ∧ ∃ git, Open ctx.items.toJson disk logFileInfo.path
      (ctx.items.sessionMeta (sessionMeta.withGit git) :: added past) (acked past) s)

theorem added_snoc (label : RolloutCmd ι × Io) :
    added (labels ++ [label]) = added labels ++ label.1.items := by
  rw [added, List.flatMap_append, List.flatMap_singleton, added]

theorem acked_snoc (label : RolloutCmd ι × Io) :
    acked (labels ++ [label]) = acked labels ++ label.1.acks := by
  rw [acked, List.flatMap_append, List.flatMap_singleton, acked]

theorem deferred_start (io : Io) :
    Deferred disk logFileInfo sessionMeta [] []
      ((create (ι := ι) disk logFileInfo sessionMeta stateBuilder).start ctx io) :=
  ⟨rfl, rfl, rfl, rfl, rfl, rfl, rfl⟩

/-- One command. -/
theorem Follows.step {past : List (RolloutCmd ι × Io)} {label : RolloutCmd ι × Io}
    (h : Follows ctx disk logFileInfo sessionMeta past s) (hstep : Step ctx s label t)
    (hclean : label.2.Clean) :
    Follows ctx disk logFileInfo sessionMeta (past ++ [label]) t := by
  obtain ⟨-, rfl⟩ := hstep
  obtain ⟨cmd, io⟩ := label
  rw [Follows, added_snoc, acked_snoc]
  obtain ⟨hpast, hdeferred⟩ | ⟨⟨ack, io', hpersist⟩, git, hopen⟩ := h
  · by_cases hcmd : ∃ ack, cmd = .persist ack
    · obtain ⟨ack, rfl⟩ := hcmd
      have hpersisted : Persisted (past ++ [(RolloutCmd.persist ack, io)]) :=
        ⟨ack, io, List.mem_append_right _ List.mem_cons_self⟩
      refine .inr ⟨hpersisted, io.git, ?_⟩
      rw [RolloutCmd.items, List.append_nil]
      exact hdeferred.persist hclean ack
    · refine .inl ⟨?_, hdeferred.process fun ack hack => hcmd ⟨ack, hack⟩⟩
      rintro ⟨ack, io', hmem⟩
      obtain hmem | hmem := List.mem_append.1 hmem
      · exact hpast ⟨ack, io', hmem⟩
      · exact hcmd ⟨ack, (congrArg Prod.fst (List.mem_singleton.1 hmem)).symm⟩
  · exact .inr ⟨⟨ack, io', List.mem_append_left _ hpersist⟩, git, hopen.process hclean⟩

theorem follows_of_run {io : Io}
    (hrun : Run (Step ctx) ((create disk logFileInfo sessionMeta stateBuilder).start ctx io)
      labels t)
    (hclean : ∀ label ∈ labels, label.2.Clean) :
    Follows ctx disk logFileInfo sessionMeta labels t := by
  have hhistory := hrun.history
    (I := fun past s => (∀ label ∈ past, label.2.Clean) →
      Follows ctx disk logFileInfo sessionMeta past s)
    (fun {past s label t} hpast hstep hall =>
      (hpast fun l hl => hall l (List.mem_append_left _ hl)).step hstep
        (hall label (List.mem_append_right _ List.mem_cons_self)))
    [] (fun _ => .inl ⟨fun ⟨_, _, hmem⟩ => List.not_mem_nil hmem, deferred_start io⟩)
  exact hhistory hclean

/-- The file has the line of the session's metadata, and then the lines of these items. -/
def Materialized (ctx : Context ι) (path : PathBuf) (sessionMeta : SessionMeta) (items : List ι)
    (s : RolloutWriter ι) : Prop :=
  ∃ git content, s.disk path = some content ∧
    Holds ctx.items.toJson [] (ctx.items.sessionMeta (sessionMeta.withGit git) :: items) content

theorem Follows.materialized {past : List (RolloutCmd ι × Io)}
    (h : Follows ctx disk logFileInfo sessionMeta past s) (hnew : disk logFileInfo.path = none)
    (hpersisted : Persisted past) :
    Materialized ctx logFileInfo.path sessionMeta (added past) s := by
  obtain ⟨hpast, -⟩ | ⟨-, git, hopen⟩ := h
  · exact absurd hpersisted hpast
  · obtain ⟨content, hcontent, hholds⟩ := hopen.content
    rw [hnew] at hholds
    exact ⟨git, content, hcontent, hholds⟩

/-- Without an I/O error, the file of a new session does not exist before the first `Persist`, and
holds the session's metadata and all items added from then on; every command is acknowledged that
waits for it, and at a `Flush` after the `Persist` all earlier items are in the file. No other file
changes. -/
theorem rolloutWriter_spec {io : Io} (hnew : disk logFileInfo.path = none)
    (hrun : Run (Step ctx) ((create disk logFileInfo sessionMeta stateBuilder).start ctx io)
      labels t)
    (hclean : ∀ label ∈ labels, label.2.Clean) :
    (¬ Persisted labels → t.disk logFileInfo.path = none) ∧
      (Persisted labels → Materialized ctx logFileInfo.path sessionMeta (added labels) t) ∧
      (∀ p, p ≠ logFileInfo.path → t.disk p = disk p) ∧
      t.running = true ∧ t.acks = acked labels ∧
      ∀ before ack flushIo after, labels = before ++ (.flush ack, flushIo) :: after →
        Persisted before →
        ∃ u, Run (Step ctx) ((create disk logFileInfo sessionMeta stateBuilder).start ctx io)
            (before ++ [(.flush ack, flushIo)]) u ∧
          Run (Step ctx) u after t ∧ u.acks = acked before ++ [ack] ∧
          Materialized ctx logFileInfo.path sessionMeta (added before) u := by
  have hfollows := follows_of_run hrun hclean
  refine ⟨?_, hfollows.materialized hnew, ?_, ?_, ?_, ?_⟩
  · intro hpersisted
    obtain ⟨-, hdeferred⟩ | ⟨hpast, -⟩ := hfollows
    · rw [hdeferred.disk, hnew]
    · exact absurd hpast hpersisted
  · intro p hp
    obtain ⟨-, hdeferred⟩ | ⟨-, git, hopen⟩ := hfollows
    · rw [hdeferred.disk]
    · exact hopen.frame p hp
  · obtain ⟨-, hdeferred⟩ | ⟨-, git, hopen⟩ := hfollows
    · exact hdeferred.running
    · exact hopen.running
  · obtain ⟨-, hdeferred⟩ | ⟨-, git, hopen⟩ := hfollows
    · exact hdeferred.acks
    · exact hopen.acks
  · rintro before ack flushIo after rfl ⟨persistAck, persistIo, hpersist⟩
    rw [List.append_cons] at hrun hclean
    obtain ⟨u, hbefore, hafter⟩ := hrun.of_append
    have hu := follows_of_run hbefore fun label hlabel =>
      hclean label (List.mem_append_left _ hlabel)
    have hpersisted : Persisted (before ++ [(RolloutCmd.flush ack, flushIo)]) :=
      ⟨persistAck, persistIo, List.mem_append_left _ hpersist⟩
    refine ⟨u, hbefore, hafter, ?_, ?_⟩
    · obtain ⟨hpast, -⟩ | ⟨-, git, hopen⟩ := hu
      · exact absurd hpersisted hpast
      · exact hopen.acks.trans (acked_snoc _)
    · have hmaterialized := hu.materialized hnew hpersisted
      rwa [added_snoc, RolloutCmd.items, List.append_nil] at hmaterialized

/-! ### Two items around a `Persist` -/

/-- Items that are their own lines. -/
def plainItems : ItemFormat Str where
  sessionMeta := SessionMetaLine.cwd
  view := fun _ => .otherEvent
  toJson := fun _ item => item

def plainContext : Context Str :=
  ⟨plainItems, State.sessionFormats, some, ["rollout.jsonl"], true⟩

def plainLogFile : LogFileInfo := ⟨["rollout.jsonl"], 0, ⟨2026, 1, 27, 12, 34, 56, 0⟩⟩

def plainMeta : SessionMeta := ⟨0, State.sessionTimestamp, "/work", "1.0.0", .cli, none⟩

def plainIo : Io := ⟨true, ⟨"now", none⟩, fun _ => ⟨"now", none⟩, true, none, none⟩

def plainSession : RolloutWriter Str := (create (fun _ => none) plainLogFile plainMeta none).start
  plainContext plainIo

def plainCommands : List (RolloutCmd Str × Io) :=
  [.addItems ["first"], .persist 1, .addItems ["second"], .flush 2].map fun cmd => (cmd, plainIo)

def plainResult : RolloutWriter Str :=
  plainCommands.foldl (fun s label => s.process plainContext label.2 label.1) plainSession

theorem rolloutWriter_spec_twoItems :
    Materialized plainContext ["rollout.jsonl"] plainMeta ["first", "second"] plainResult ∧
      plainResult.acks = [1, 2] := by
  have hrun : Run (Step plainContext) plainSession plainCommands plainResult :=
    .cons ⟨rfl, rfl⟩ (.cons ⟨rfl, rfl⟩ (.cons ⟨rfl, rfl⟩ (.cons ⟨rfl, rfl⟩ (.nil _))))
  have hclean : ∀ label ∈ plainCommands, label.2.Clean := by
    intro label hlabel
    obtain ⟨cmd, -, rfl⟩ := List.mem_map.1 hlabel
    exact ⟨rfl, rfl, fun _ => rfl, rfl⟩
  have hspec := rolloutWriter_spec (by rfl) hrun hclean
  exact ⟨hspec.2.1 ⟨1, plainIo, List.mem_map_of_mem (by simp)⟩, hspec.2.2.2.2.1⟩

/-- The file of a resumed session holds what it held and all items added. -/
theorem open_of_run_resume {io : Io} {content : Str} (hcontent : disk path = some content)
    (hrun : Run (Step ctx) ((resume disk path stateBuilder).start ctx io) labels t)
    (hclean : ∀ label ∈ labels, label.2.Clean) :
    Open ctx.items.toJson disk path (added labels) (acked labels) t := by
  have hstart : Open ctx.items.toJson disk path [] []
      ((resume (ι := ι) disk path stateBuilder).start ctx io) := by
    refine ⟨⟨rfl, rfl, fun _ _ => rfl, ⟨content, hcontent, ?_⟩, rfl⟩, rfl, rfl⟩
    rw [hcontent]
    exact .nil
  have hhistory := hrun.history
    (I := fun past s => (∀ label ∈ past, label.2.Clean) →
      Open ctx.items.toJson disk path (added past) (acked past) s)
    (fun {past s label t} hpast hstep hall => by
      obtain ⟨-, rfl⟩ := hstep
      rw [added_snoc, acked_snoc]
      exact (hpast fun l hl => hall l (List.mem_append_left _ hl)).process
        (hall label (List.mem_append_right _ List.mem_cons_self)))
    [] (fun _ => hstart)
  exact hhistory hclean

def resumedSession : RolloutWriter Str :=
  (resume (fun _ => some "old") ["rollout.jsonl"] none).start plainContext plainIo

/-- One item more. -/
theorem open_of_run_resume_oneItem :
    Open plainItems.toJson (fun _ => some "old") ["rollout.jsonl"] ["more"] []
      (resumedSession.process plainContext plainIo (.addItems ["more"])) := by
  have hrun : Run (Step plainContext) resumedSession [(.addItems ["more"], plainIo)]
      (resumedSession.process plainContext plainIo (.addItems ["more"])) := .single ⟨rfl, rfl⟩
  refine open_of_run_resume rfl hrun fun label hlabel => ?_
  obtain rfl := List.mem_singleton.1 hlabel
  exact ⟨rfl, rfl, fun _ => rfl, rfl⟩

end RolloutWriter

end SheriMl.RolloutRecorder
