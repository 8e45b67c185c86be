import SheriMl.Lib.Path

/-!
# File trees

A file system of regular files and directories, without links. Paths are walked
as the kernel does: every step needs a directory, `..` goes to its parent. What a
walk finds is where its components lead lexically (`target_spec`), so that each
operation has one rule over locations, which says what it changes and that
everything else stays.
-/

/-- The names from the root. -/
abbrev Loc := List Str

namespace Path

open List

def enter (loc : Loc) : Component → Loc
  | .rootDir => []
  | .curDir => loc
  | .parentDir => loc.dropLast
  | .normal name => loc ++ [name]

def locate (loc : Loc) (comps : List Component) : Loc := comps.foldl enter loc

/-- The locations on the way. -/
def passed : Loc → List Component → List Loc
  | _, [] => []
  | loc, c :: cs => enter loc c :: passed (enter loc c) cs

def enterPiece (loc : Loc) (piece : Str) : Loc :=
  if piece = [] ∨ piece = ['.'] then loc
  else if piece = ['.', '.'] then loc.dropLast
  else loc ++ [piece]

theorem foldl_enterPiece (loc : Loc) (pieces : List Str) :
    pieces.foldl enterPiece loc = locate loc (bodyComponents pieces) := by
  induction pieces generalizing loc with
  | nil => rfl
  | cons piece pieces ih =>
    rw [foldl_cons, ih]
    by_cases hskip : piece = [] ∨ piece = ['.']
    · have hbody : bodyComponents (piece :: pieces) = bodyComponents pieces := by
        rcases hskip with rfl | rfl
        · rfl
        · rfl
      rw [hbody, enterPiece, if_pos hskip]
    · obtain ⟨hempty, hdot⟩ := not_or.1 hskip
      have hbody : bodyComponents (piece :: pieces) =
          (if piece = ['.', '.'] then Component.parentDir else .normal piece) ::
            bodyComponents pieces := by
        unfold bodyComponents
        rw [filter_cons_of_pos (by simp [hempty, hdot]), map_cons]
      rw [hbody, enterPiece, if_neg hskip]
      split <;> rfl

/-- The location of a path from the root. -/
def located (p : Str) : Loc := locate [] (components p)

theorem foldl_enterPiece_split (p : Str) : (Str.split '/' p).foldl enterPiece [] = located p := by
  rw [foldl_enterPiece]
  unfold located components
  split
  · rfl
  · split
    next rest hsplit =>
      rw [hsplit]
      rfl
    · rfl

end Path

namespace FileTree

open List

/-- The contents of a file: UTF-8 text, or bytes that are not. -/
inductive Contents where
  | text (s : Str)
  | binary
  deriving DecidableEq

inductive Node where
  | file (contents : Contents)
  | dir
  deriving DecidableEq

end FileTree

open FileTree (Contents Node)

/-- What is at each location; whatever has a name is in a directory. -/
structure FileTree where
  node : Loc → Option Node
  root_dir : node [] = some .dir
  parent_dir : ∀ loc name, (node (loc ++ [name])).isSome → node loc = some .dir

namespace FileTree

open List

variable {t t' : FileTree} {loc dir l : Loc} {name p s : Str} {c : Contents}

/-- Only the root. -/
def empty : FileTree where
  node l := if l = [] then some .dir else none
  root_dir := rfl
  parent_dir l x hx := by
    rw [if_neg (by simp)] at hx
    cases hx

def put (t : FileTree) (dir : Loc) (name : Str) (n : Node) (hdir : t.node dir = some .dir)
    (hnode : t.node (dir ++ [name]) ≠ some .dir) : FileTree where
  node l := if l = dir ++ [name] then some n else t.node l
  root_dir := by
    rw [if_neg (by simp)]
    exact t.root_dir
  parent_dir l x hx := by
    have hne : dir ≠ dir ++ [name] := by simp
    by_cases heq : l ++ [x] = dir ++ [name]
    · obtain ⟨rfl, -⟩ := append_inj' heq rfl
      rw [if_neg hne]
      exact hdir
    · rw [if_neg heq] at hx
      have hl := t.parent_dir l x hx
      have hother : l ≠ dir ++ [name] := by
        rintro rfl
        exact hnode hl
      rw [if_neg hother]
      exact hl

def erase (t : FileTree) (loc : Loc) (hloc : t.node loc ≠ some .dir) : FileTree where
  node l := if l = loc then none else t.node l
  root_dir := by
    have hroot : [] ≠ loc := by
      rintro rfl
      exact hloc t.root_dir
    rw [if_neg hroot]
    exact t.root_dir
  parent_dir l x hx := by
    by_cases heq : l ++ [x] = loc
    · rw [if_pos heq] at hx
      cases hx
    · rw [if_neg heq] at hx
      have hl := t.parent_dir l x hx
      have hother : l ≠ loc := by
        rintro rfl
        exact hloc hl
      rw [if_neg hother]
      exact hl

/-! ## Walking a path -/

/-- Each piece is entered from a directory, and so is what follows the last. -/
def walk (t : FileTree) : Loc → List Str → Option Loc
  | loc, [] => if t.node loc = some .dir then some loc else none
  | loc, piece :: pieces =>
    if t.node loc = some .dir then walk t (Path.enterPiece loc piece) pieces else none

/-- The directory and the name of the file that a path names. -/
def target (t : FileTree) (p : Str) : Option (Loc × Str) :=
  match (Str.split '/' p).getLast? with
  | none => none
  | some name =>
    if name = [] ∨ name = ['.'] ∨ name = ['.', '.'] then none
    else (walk t [] (Str.split '/' p).dropLast).map fun dir => (dir, name)

theorem walk_spec {pieces : List Str} (h : walk t loc pieces = some l) :
    l = pieces.foldl Path.enterPiece loc ∧ t.node l = some .dir := by
  induction pieces generalizing loc with
  | nil =>
    unfold walk at h
    split at h
    next hdir =>
      cases h
      exact ⟨rfl, hdir⟩
    · cases h
  | cons piece pieces ih =>
    unfold walk at h
    split at h
    · exact ih h
    · cases h

theorem target_spec (h : target t p = some (dir, name)) :
    Path.located p = dir ++ [name] ∧ t.node dir = some .dir := by
  unfold target at h
  split at h
  · cases h
  next last hlast =>
    split at h
    · cases h
    next hname =>
      obtain ⟨l, hl, heq⟩ := Option.map_eq_some_iff.1 h
      obtain ⟨rfl, rfl⟩ := Prod.mk.inj heq
      obtain ⟨hfold, hdir⟩ := walk_spec hl
      refine ⟨?_, hdir⟩
      have hpieces : Str.split '/' p = (Str.split '/' p).dropLast ++ [last] :=
        (dropLast_append_getLast? last hlast).symm
      have hnot : ¬ (last = [] ∨ last = ['.']) := by tauto
      have hnot' : last ≠ ['.', '.'] := by tauto
      rw [← Path.foldl_enterPiece_split, hpieces, foldl_append, ← hfold, foldl_cons,
        foldl_nil, Path.enterPiece, if_neg hnot, if_neg hnot']

/-! ## Files -/

/-- `fs::read_to_string`. -/
def readToString (t : FileTree) (p : Str) : Option Str :=
  match target t p with
  | none => none
  | some (dir, name) =>
    match t.node (dir ++ [name]) with
    | some (.file (.text s)) => some s
    | _ => none

/-- `fs::write`. -/
def write (t : FileTree) (p : Str) (c : Contents) : Option FileTree :=
  match target t p with
  | none => none
  | some (dir, name) =>
    if h : t.node dir = some .dir ∧ t.node (dir ++ [name]) ≠ some .dir then
      some (t.put dir name (.file c) h.1 h.2)
    else none

/-- `fs::remove_file`. -/
def removeFile (t : FileTree) (p : Str) : Option FileTree :=
  match target t p with
  | none => none
  | some (dir, name) =>
    if h : t.node (dir ++ [name]) ≠ none ∧ t.node (dir ++ [name]) ≠ some .dir then
      some (t.erase (dir ++ [name]) h.2)
    else none

theorem readToString_spec (h : readToString t p = some s) :
    t.node (Path.located p) = some (.file (.text s)) := by
  unfold readToString at h
  split at h
  · cases h
  next dir name htarget =>
    rw [(target_spec htarget).1]
    split at h
    next hnode =>
      cases h
      exact hnode
    · cases h

theorem write_spec (h : write t p c = some t') :
    t.node (Path.located p) ≠ some .dir ∧
      ∀ l, t'.node l = if l = Path.located p then some (.file c) else t.node l := by
  unfold write at h
  split at h
  · cases h
  next dir name htarget =>
    rw [(target_spec htarget).1]
    split at h
    next hnode =>
      cases h
      exact ⟨hnode.2, fun _ => rfl⟩
    · cases h

theorem removeFile_spec (h : removeFile t p = some t') :
    t.node (Path.located p) ≠ none ∧ t.node (Path.located p) ≠ some .dir ∧
      ∀ l, t'.node l = if l = Path.located p then none else t.node l := by
  unfold removeFile at h
  split at h
  · cases h
  next dir name htarget =>
    rw [(target_spec htarget).1]
    split at h
    next hnode =>
      cases h
      exact ⟨hnode.1, hnode.2, fun _ => rfl⟩
    · cases h

/-! ## Directories -/

structure CreateDirs where
  tree : FileTree
  made : List Loc
  ok : Bool

/-- `fs::create_dir_all` from a directory: what is missing is made, and stays made when a file
is in the way or the system refuses; `room` bounds how many it makes before that. -/
def createDirAll : Option Nat → FileTree → Loc → List Path.Component → CreateDirs
  | _, t, _, [] => ⟨t, [], true⟩
  | room, t, loc, .normal name :: cs =>
    if t.node (loc ++ [name]) = some .dir then createDirAll room t (loc ++ [name]) cs
    else if h : t.node loc = some .dir ∧ t.node (loc ++ [name]) = none ∧ room ≠ some 0 then
      let made := t.put loc name .dir h.1 fun hdir => nomatch h.2.1.symm.trans hdir
      let rest := createDirAll (room.map (· - 1)) made (loc ++ [name]) cs
      ⟨rest.tree, (loc ++ [name]) :: rest.made, rest.ok⟩
    else ⟨t, [], false⟩
  | room, t, loc, c :: cs => createDirAll room t (Path.enter loc c) cs

theorem node_dropLast (h : t.node loc = some .dir) : t.node loc.dropLast = some .dir := by
  rcases eq_nil_or_concat loc with rfl | ⟨init, name, rfl⟩
  · exact h
  · rw [concat_eq_append] at h ⊢
    rw [dropLast_concat]
    exact t.parent_dir init name (by rw [h]; rfl)

/-- What is made was missing and is on the way; everything else stays. -/
theorem createDirAll_spec (room : Option Nat) (t : FileTree) (loc : Loc)
    (comps : List Path.Component) :
    (∀ l, (createDirAll room t loc comps).tree.node l =
        if l ∈ (createDirAll room t loc comps).made then some .dir else t.node l) ∧
      ∀ l ∈ (createDirAll room t loc comps).made, t.node l = none ∧ l ∈ Path.passed loc comps := by
  induction comps generalizing room t loc with
  | nil =>
    unfold createDirAll
    simp
  | cons c cs ih =>
    cases c with
    | normal name =>
      unfold createDirAll
      split
      · refine ⟨(ih room t (loc ++ [name])).1, fun l hl => ?_⟩
        obtain ⟨hnone, hpassed⟩ := (ih room t (loc ++ [name])).2 l hl
        exact ⟨hnone, mem_cons_of_mem _ hpassed⟩
      · split
        next h =>
          obtain ⟨hnode, hmade⟩ := ih (room.map (· - 1))
            (t.put loc name .dir h.1 fun hdir => nomatch h.2.1.symm.trans hdir) (loc ++ [name])
          refine ⟨fun l => ?_, fun l hl => ?_⟩
          · dsimp only
            rw [hnode l]
            by_cases hnew : l = loc ++ [name]
            · simp [put, hnew]
            · simp [put, hnew]
          · rcases mem_cons.1 hl with rfl | hl
            · exact ⟨h.2.1, mem_cons_self⟩
            · obtain ⟨hnone, hpassed⟩ := hmade l hl
              refine ⟨?_, mem_cons_of_mem _ hpassed⟩
              by_cases hnew : l = loc ++ [name]
              · rw [hnew]
                exact h.2.1
              · simpa [put, hnew] using hnone
        · simp
    | rootDir =>
      obtain ⟨hnode, hmade⟩ := ih room t []
      exact ⟨hnode, fun l hl => ⟨(hmade l hl).1, mem_cons_of_mem _ (hmade l hl).2⟩⟩
    | curDir =>
      obtain ⟨hnode, hmade⟩ := ih room t loc
      exact ⟨hnode, fun l hl => ⟨(hmade l hl).1, mem_cons_of_mem _ (hmade l hl).2⟩⟩
    | parentDir =>
      obtain ⟨hnode, hmade⟩ := ih room t loc.dropLast
      exact ⟨hnode, fun l hl => ⟨(hmade l hl).1, mem_cons_of_mem _ (hmade l hl).2⟩⟩

/-- A directory stays one. -/
theorem createDirAll_dir {room : Option Nat} {comps : List Path.Component}
    (h : t.node l = some .dir) : (createDirAll room t loc comps).tree.node l = some .dir := by
  rw [(createDirAll_spec room t loc comps).1 l, h, ite_self]

theorem createDirAll_passed {room : Option Nat} {comps : List Path.Component}
    (hloc : t.node loc = some .dir) (hok : (createDirAll room t loc comps).ok = true) :
    ∀ l ∈ Path.passed loc comps, (createDirAll room t loc comps).tree.node l = some .dir := by
  induction comps generalizing room t loc with
  | nil => simp [Path.passed]
  | cons c cs ih =>
    intro l hl
    cases c with
    | normal name =>
      unfold createDirAll at hok ⊢
      split
      next hdir =>
        rw [if_pos hdir] at hok
        rcases mem_cons.1 hl with rfl | hl
        · exact createDirAll_dir hdir
        · exact ih hdir hok l hl
      next hdir =>
        rw [if_neg hdir] at hok
        split
        next h =>
          rw [dif_pos h] at hok
          have hnew : (t.put loc name .dir h.1 fun hdir => nomatch h.2.1.symm.trans hdir).node
              (loc ++ [name]) = some .dir := if_pos rfl
          rcases mem_cons.1 hl with rfl | hl
          · exact createDirAll_dir hnew
          · exact ih hnew hok l hl
        next h =>
          rw [dif_neg h] at hok
          cases hok
    | rootDir =>
      rcases mem_cons.1 hl with rfl | hl
      · exact createDirAll_dir t.root_dir
      · exact ih t.root_dir hok l hl
    | curDir =>
      rcases mem_cons.1 hl with rfl | hl
      · exact createDirAll_dir hloc
      · exact ih hloc hok l hl
    | parentDir =>
      rcases mem_cons.1 hl with rfl | hl
      · exact createDirAll_dir (node_dropLast hloc)
      · exact ih (node_dropLast hloc) hok l hl

/-- When it succeeds, exactly the way is made. -/
theorem createDirAll_ok {room : Option Nat} {comps : List Path.Component}
    (hloc : t.node loc = some .dir) (hok : (createDirAll room t loc comps).ok = true) (l : Loc) :
    (createDirAll room t loc comps).tree.node l =
      if l ∈ Path.passed loc comps then some .dir else t.node l := by
  by_cases hl : l ∈ Path.passed loc comps
  · rw [if_pos hl]
    exact createDirAll_passed hloc hok l hl
  · obtain ⟨hnode, hmade⟩ := createDirAll_spec room t loc comps
    rw [if_neg hl, hnode l, if_neg fun hl' => hl (hmade l hl').2]

end FileTree
