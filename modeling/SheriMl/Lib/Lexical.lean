import SheriMl.Lib.LinkTree

/-!
# Resolving a path without the file system

`Path.locate` takes `..` off the names before it, without a look at the file system. The kernel goes
to the parent of what these names lead to. `locate_eq_lexical`: both lead to the same location as
long as each `..` is taken at a location that is known to be a directory; `exists_detour`: otherwise
there is a tree, with a link at the first such location, in which they do not.
-/

namespace LinkTree

open List

open Path

variable {known : Loc → Prop} {loc l : Loc} {comps pre cs : List Component} {x : Str} {X : Loc}

/-- Each `..` is taken at a known location. -/
def Certain (known : Loc → Prop) : Loc → List Component → Prop
  | _, [] => True
  | loc, c :: cs => (c = .parentDir → known loc) ∧ Certain known (enter loc c) cs

/-! ## Where they agree -/

section Agree

variable {t : LinkTree} {follow : Loc → List Component → Option Loc} {names : List Str}

theorem dir_of_append (h : t.node (loc ++ names) = some .dir) : t.node loc = some .dir := by
  induction names using List.reverseRecOn with
  | nil => rwa [append_nil] at h
  | append_singleton names name ih =>
    refine ih (t.parent_dir _ name ?_)
    rw [append_assoc, h]
    rfl

/-- The names of a directory lead to it. -/
theorem locateWith_names (h : t.node (loc ++ names) = some .dir) :
    locateWith t.node follow loc (names.map .normal ++ cs) =
      locateWith t.node follow (loc ++ names) cs := by
  induction names generalizing loc with
  | nil => rw [map_nil, nil_append, append_nil]
  | cons name names ih =>
    have happend : loc ++ name :: names = (loc ++ [name]) ++ names := by simp
    rw [happend] at h ⊢
    have hname : t.node (loc ++ [name]) = some .dir := dir_of_append h
    have hsome : (t.node (loc ++ [name])).isSome := by
      rw [hname]
      rfl
    have hlink : isLink t.node (loc ++ [name]) = false := by rw [isLink, hname]
    rw [map_cons, cons_append, locateWith_normal (dir_of_append hname) hsome hlink, ih h]

theorem locateWith_parentDir (h : t.node loc = some .dir) :
    locateWith t.node follow loc (.parentDir :: cs) = locateWith t.node follow loc.dropLast cs := by
  conv_lhs => unfold locateWith
  rw [if_pos h]

theorem dir_dropLast (h : t.node loc = some .dir) : t.node loc.dropLast = some .dir := by
  obtain rfl | ⟨init, name, rfl⟩ := eq_nil_or_concat loc
  · exact h
  · rw [concat_eq_append] at h ⊢
    rw [dropLast_concat]
    exact dir_of_append h

theorem locateWith_eq_lexical (hknown : ∀ loc, known loc → t.node loc = some .dir)
    (hbody : ∀ c ∈ comps, c ≠ .rootDir ∧ c ≠ .curDir) (h : Certain known loc comps) :
    locateWith t.node follow [] (loc.map .normal ++ comps) =
      locateWith t.node follow [] ((Path.locate loc comps).map .normal) := by
  induction comps generalizing loc with
  | nil => rw [append_nil]; rfl
  | cons c cs ih =>
    have hrest := ih (fun c hc => hbody c (mem_cons_of_mem _ hc)) h.2
    cases c with
    | rootDir => exact absurd rfl (hbody _ mem_cons_self).1
    | curDir => exact absurd rfl (hbody _ mem_cons_self).2
    | normal name =>
      rw [enter, map_append, append_assoc] at hrest
      exact hrest
    | parentDir =>
      have hdir : t.node ([] ++ loc) = some .dir := hknown loc (h.1 rfl)
      have hparent : t.node ([] ++ loc.dropLast) = some .dir := dir_dropLast hdir
      rw [locateWith_names hdir, locateWith_parentDir hdir]
      exact (locateWith_names hparent).symm.trans hrest

/-- Both lead to the same location. -/
theorem locate_eq_lexical {links : Nat} (hknown : ∀ loc, known loc → t.node loc = some .dir)
    (hbody : ∀ c ∈ comps, c ≠ .rootDir ∧ c ≠ .curDir) (hloc : t.node loc = some .dir)
    (h : Certain known loc comps) :
    locate t.node links loc comps =
      locate t.node links [] ((Path.locate loc comps).map .normal) := by
  have hnames : t.node ([] ++ loc) = some .dir := hloc
  cases links with
  | zero | succ =>
    exact (locateWith_names hnames).symm.trans (locateWith_eq_lexical hknown hbody h)

end Agree

/-! ## Where they do not -/

section Spot

/-- Everything is a directory, but for one location and what would be below it. -/
def spot (X : Loc) (hX : X ≠ []) (node : Node) : LinkTree where
  node loc := if loc = X then some node else if X <+: loc then none else some .dir
  root_dir := by
    rw [if_neg hX.symm, if_neg fun h => hX (prefix_nil.1 h)]
  parent_dir loc name h := by
    have hbelow : ¬X <+: loc := by
      intro hpre
      have hne : loc ++ [name] ≠ X := by
        rintro rfl
        have hlen := hpre.length_le
        rw [length_append, length_singleton] at hlen
        omega
      rw [if_neg hne, if_pos (hpre.trans (prefix_append ..))] at h
      cases h
    have hne : loc ≠ X := by
      rintro rfl
      exact hbelow prefix_rfl
    rw [if_neg hne, if_neg hbelow]

variable {hX : X ≠ []} {node : Node} {links : Nat}
  {follow : Loc → List Component → Option Loc}

theorem spot_node (X : Loc) (hX : X ≠ []) (node : Node) : (spot X hX node).node X = some node :=
  if_pos rfl

theorem spot_dir (h : ¬X <+: loc) : (spot X hX node).node loc = some .dir := by
  change (if loc = X then some node else if X <+: loc then none else some .dir) = some .dir
  have hne : loc ≠ X := by
    rintro rfl
    exact h prefix_rfl
  rw [if_neg hne, if_neg h]

/-- Away from the spot, the kernel goes where the names say. -/
theorem locateWith_spot (hbody : ∀ c ∈ pre, c ≠ .rootDir ∧ c ≠ .curDir) (hloc : ¬X <+: loc)
    (hpassed : ∀ l ∈ passed loc pre, ¬X <+: l) :
    locateWith (spot X hX node).node follow loc (pre ++ cs) =
      locateWith (spot X hX node).node follow (Path.locate loc pre) cs := by
  induction pre generalizing loc with
  | nil => rfl
  | cons c pre ih =>
    obtain ⟨henter, hpassed⟩ := forall_mem_cons.1 hpassed
    have hrest := ih (fun c hc => hbody c (mem_cons_of_mem _ hc)) henter hpassed
    have hdir : (spot X hX node).node loc = some .dir := spot_dir hloc
    cases c with
    | rootDir => exact absurd rfl (hbody _ mem_cons_self).1
    | curDir => exact absurd rfl (hbody _ mem_cons_self).2
    | parentDir => exact (locateWith_parentDir hdir).trans hrest
    | normal name =>
      have hname : (spot X hX node).node (loc ++ [name]) = some .dir := spot_dir henter
      have hsome : ((spot X hX node).node (loc ++ [name])).isSome := by
        rw [hname]
        rfl
      have hlink : isLink (spot X hX node).node (loc ++ [name]) = false := by rw [isLink, hname]
      exact (locateWith_normal hdir hsome hlink).trans hrest

theorem locate_spot (hbody : ∀ c ∈ pre, c ≠ .rootDir ∧ c ≠ .curDir) (hloc : ¬X <+: loc)
    (hpassed : ∀ l ∈ passed loc pre, ¬X <+: l) :
    locate (spot X hX node).node links loc pre = some (Path.locate loc pre) := by
  have hnil (follow : Loc → List Component → Option Loc) :
      locateWith (spot X hX node).node follow loc (pre ++ []) = some (Path.locate loc pre) :=
    locateWith_spot hbody hloc hpassed
  rw [append_nil] at hnil
  cases links with
  | zero | succ => exact hnil _

end Spot

section Detour

/-- The first `..` that is taken at an unknown location comes right after a name. -/
theorem exists_uncertain (hparent : ∀ loc, known loc → known loc.dropLast)
    (hbody : ∀ c ∈ comps, c ≠ .rootDir ∧ c ≠ .curDir) (h : ¬Certain known loc comps) :
    (∃ pre x post, comps = pre ++ .normal x :: .parentDir :: post ∧ Certain known loc pre ∧
      ¬known (Path.locate loc pre ++ [x])) ∨
    ∃ post, comps = .parentDir :: post ∧ ¬known loc := by
  induction comps generalizing loc with
  | nil => exact absurd trivial h
  | cons c cs ih =>
    by_cases hc : c = .parentDir → known loc
    · have hcs : ¬Certain known (enter loc c) cs := fun hcs => h ⟨hc, hcs⟩
      rcases ih (fun c hc => hbody c (mem_cons_of_mem _ hc)) hcs with
        ⟨pre, x, post, rfl, hpre, hx⟩ | ⟨post, rfl, hunknown⟩
      · exact .inl ⟨c :: pre, x, post, rfl, ⟨hc, hpre⟩, hx⟩
      · cases c with
        | rootDir => exact absurd rfl (hbody _ mem_cons_self).1
        | curDir => exact absurd rfl (hbody _ mem_cons_self).2
        | normal x => exact .inl ⟨[], x, post, rfl, trivial, hunknown⟩
        | parentDir => exact absurd (hparent loc (hc rfl)) hunknown
    · obtain ⟨rfl, hunknown⟩ := Classical.not_imp.1 hc
      exact .inr ⟨cs, rfl, hunknown⟩

variable (hclosed : ∀ {loc X : Loc}, known loc → X <+: loc → known X)

include hclosed

theorem below_locate (hX : ¬known X) (hbody : ∀ c ∈ pre, c ≠ .rootDir ∧ c ≠ .curDir)
    (h : Certain known loc pre) (hloc : X <+: loc) : X <+: Path.locate loc pre := by
  induction pre generalizing loc with
  | nil => exact hloc
  | cons c pre ih =>
    refine ih (fun c hc => hbody c (mem_cons_of_mem _ hc)) h.2 ?_
    cases c with
    | rootDir => exact absurd rfl (hbody _ mem_cons_self).1
    | curDir => exact absurd rfl (hbody _ mem_cons_self).2
    | parentDir => exact absurd (hclosed (h.1 rfl) hloc) hX
    | normal name => exact hloc.trans (prefix_append ..)

theorem below_locate_of_passed (hX : ¬known X) (hbody : ∀ c ∈ pre, c ≠ .rootDir ∧ c ≠ .curDir)
    (h : Certain known loc pre) (hl : l ∈ passed loc pre) (hbelow : X <+: l) :
    X <+: Path.locate loc pre := by
  induction pre generalizing loc with
  | nil => cases hl
  | cons c pre ih =>
    have hbody' : ∀ c ∈ pre, c ≠ .rootDir ∧ c ≠ .curDir :=
      fun c hc => hbody c (mem_cons_of_mem _ hc)
    rcases mem_cons.1 hl with rfl | hl
    · have hend : X <+: Path.locate (enter loc c) pre := below_locate hclosed hX hbody' h.2 hbelow
      exact hend
    · exact ih hbody' h.2 hl

omit hclosed

/-! ### A directory that is new to the path -/

variable {f : Str}

theorem head_enter {c : Component} (hc : c ≠ .rootDir ∧ c ≠ .curDir) (hhead : loc.head? = some f)
    (hlen : 1 < loc.length) :
    (enter loc c).head? = some f ∧ loc.length ≤ (enter loc c).length + 1 := by
  obtain ⟨name, rest, rfl⟩ := exists_cons_of_length_pos (by omega : 0 < loc.length)
  cases c with
  | rootDir => exact absurd rfl hc.1
  | curDir => exact absurd rfl hc.2
  | normal name' => exact ⟨hhead, by simp [enter]⟩
  | parentDir =>
    obtain ⟨second, rest, rfl⟩ := exists_cons_of_length_pos
      (by simpa using hlen : 0 < rest.length)
    exact ⟨hhead, by simp [enter]⟩

/-- From deep enough in it, a path stays in it. -/
theorem head_locate (hbody : ∀ c ∈ comps, c ≠ .rootDir ∧ c ≠ .curDir) (hhead : loc.head? = some f)
    (hlen : comps.length < loc.length) :
    (∀ l ∈ passed loc comps, l.head? = some f) ∧ (Path.locate loc comps).head? = some f := by
  induction comps generalizing loc with
  | nil => exact ⟨fun _ hl => absurd hl not_mem_nil, hhead⟩
  | cons c cs ih =>
    rw [length_cons] at hlen
    obtain ⟨hhead', hlen'⟩ := head_enter (hbody c mem_cons_self) hhead (by omega)
    obtain ⟨hpassed, hend⟩ := ih (fun c hc => hbody c (mem_cons_of_mem _ hc)) hhead' (by omega)
    exact ⟨forall_mem_cons.2 ⟨hhead', hpassed⟩, hend⟩

theorem count_locate_le (hbody : ∀ c ∈ comps, c ≠ .rootDir ∧ c ≠ .curDir)
    (hnew : .normal f ∉ comps) : (Path.locate loc comps).count f ≤ loc.count f := by
  induction comps generalizing loc with
  | nil => exact Nat.le_refl _
  | cons c cs ih =>
    have hrest : (Path.locate (enter loc c) cs).count f ≤ (enter loc c).count f :=
      ih (fun c hc => hbody c (mem_cons_of_mem _ hc)) fun h => hnew (mem_cons_of_mem _ h)
    refine hrest.trans ?_
    cases c with
    | rootDir => exact absurd rfl (hbody _ mem_cons_self).1
    | curDir => exact absurd rfl (hbody _ mem_cons_self).2
    | parentDir => exact (dropLast_sublist loc).count_le f
    | normal name =>
      have hne : name ≠ f := by
        rintro rfl
        exact hnew mem_cons_self
      rw [enter, count_append, count_singleton]
      simp [hne]

theorem not_prefix_of_head (hX : X ≠ []) (hnew : f ∉ X) (hl : l.head? = some f) : ¬X <+: l := by
  rintro ⟨rest, rfl⟩
  obtain ⟨name, X, rfl⟩ := exists_cons_of_ne_nil hX
  obtain rfl : name = f := Option.some.inj hl
  exact hnew mem_cons_self

theorem exists_length_le (names : List Str) : ∃ n, ∀ name ∈ names, name.length ≤ n := by
  induction names with
  | nil => exact ⟨0, fun _ h => absurd h not_mem_nil⟩
  | cons name names ih =>
    obtain ⟨n, hn⟩ := ih
    refine ⟨max name.length n, forall_mem_cons.2 ⟨Nat.le_max_left .., fun name hname => ?_⟩⟩
    exact (hn name hname).trans (Nat.le_max_right ..)

/-- There is a name that none of these is. -/
theorem exists_fresh (names : List Str) : ∃ f, IsName f ∧ f ∉ names := by
  obtain ⟨n, hn⟩ := exists_length_le names
  have hchar {c : Char} (hc : c ≠ 'f') : c ∉ List.replicate (n + 3) 'f' :=
    fun h => hc (eq_of_mem_replicate h)
  refine ⟨List.replicate (n + 3) 'f', ⟨?_, ?_, ?_, hchar (by decide)⟩, fun h => ?_⟩
  · simp
  · exact fun h => absurd (congrArg List.length h) (by simp)
  · exact fun h => absurd (congrArg List.length h) (by simp)
  · have hle := hn _ h
    rw [length_replicate] at hle
    omega

def nameOf : Component → Option Str
  | .normal name => some name
  | .rootDir | .curDir | .parentDir => none

theorem locate_names {t : LinkTree} {links : Nat} {names : List Str}
    (h : t.node (loc ++ names) = some .dir) :
    locate t.node links loc (names.map .normal) = some (loc ++ names) := by
  have hend (follow : Loc → List Component → Option Loc) :
      locateWith t.node follow loc (names.map .normal) = some (loc ++ names) := by
    have hnames : locateWith t.node follow loc (names.map .normal ++ []) = some (loc ++ names) :=
      locateWith_names h
    rwa [append_nil] at hnames
  cases links with
  | zero | succ => exact hend _

theorem locate_link {t : LinkTree} {links : Nat} {name : Str} {names : List Str}
    (hdir : t.node loc = some .dir)
    (hlink : t.node (loc ++ [name]) = some (.link ('/' :: Str.join "/" names)))
    (hnames : ∀ name ∈ names, IsName name) (htarget : t.node names = some .dir) :
    locate t.node (links + 1) loc (.normal name :: cs) = locate t.node links names cs := by
  have hfollow : locate t.node (links + 1) loc (.normal name :: cs) =
      locate t.node links loc (components ('/' :: Str.join "/" names) ++ cs) := by
    rw [locate]
    unfold locateWith
    rw [if_pos hdir]
    dsimp only
    rw [hlink]
  have hroot (follow : Loc → List Component → Option Loc) :
      locateWith t.node follow loc (.rootDir :: (names.map .normal ++ cs)) =
        locateWith t.node follow names cs := by
    have hnames : t.node ([] ++ names) = some .dir := htarget
    refine Eq.trans ?_ (locateWith_names hnames)
    conv_lhs => unfold locateWith
    rw [if_pos hdir]
  rw [hfollow, components_join hnames, cons_append]
  cases links with
  | zero | succ => exact hroot _

/-- When some `..` is taken at an unknown location there is a tree in which the path leads to a
directory, and its lexical resolution, or whatever else, does not lead there. -/
theorem exists_detour (hclosed : ∀ {loc X : Loc}, known loc → X <+: loc → known X)
    (hloc : known loc) (hbody : ∀ c ∈ comps, c ≠ .rootDir ∧ c ≠ .curDir)
    (h : ¬Certain known loc comps) (N : Loc) :
    ∃ (t : LinkTree) (l : Loc), (∀ loc, known loc → t.node loc = some .dir) ∧
      t.node l = some .dir ∧ ∀ links, locate t.node (links + 1) loc comps = some l ∧
        locate t.node (links + 1) [] (N.map .normal) ≠ some l := by
  have hparent : ∀ loc, known loc → known loc.dropLast :=
    fun loc hloc => hclosed hloc (List.dropLast_prefix loc)
  obtain ⟨pre, x, post, rfl, hpre, hX⟩ | ⟨post, rfl, hunknown⟩ := exists_uncertain hparent hbody h
  swap
  · exact absurd hloc hunknown
  generalize hpreB : Path.locate loc pre = B at hX
  have hXne : B ++ [x] ≠ [] := by simp
  obtain ⟨f, hname, hfresh⟩ := exists_fresh ((B ++ [x]) ++ (N ++ post.filterMap nameOf))
  obtain ⟨hfX, hfresh⟩ := not_or.1 (mt mem_append.2 hfresh)
  obtain ⟨hfN, hfpost⟩ := not_or.1 (mt mem_append.2 hfresh)
  have hnew : .normal f ∉ post := fun h => hfpost (mem_filterMap.2 ⟨_, h, rfl⟩)
  have hbodyPre : ∀ c ∈ pre, c ≠ .rootDir ∧ c ≠ .curDir :=
    fun c hc => hbody c (mem_append_left _ hc)
  have hbodyPost : ∀ c ∈ post, c ≠ .rootDir ∧ c ≠ .curDir := fun c hc =>
    hbody c (mem_append_right _ (mem_cons_of_mem _ (mem_cons_of_mem _ hc)))
  -- the link leads to a directory that is deeper than `post` gets out of
  let F : Loc := List.replicate (post.length + 2) f
  let t := spot (B ++ [x]) hXne (.link ('/' :: Str.join "/" F))
  have hnames : ∀ name ∈ F, IsName name := fun name hmem => eq_of_mem_replicate hmem ▸ hname
  have hdirOf {l : Loc} (hhead : l.head? = some f) : t.node l = some .dir :=
    spot_dir (not_prefix_of_head hXne hfX hhead)
  have hB : ¬(B ++ [x]) <+: B := fun h => absurd h.length_le (by simp)
  have hlink {links : Nat} {cs : List Component} :
      locate t.node (links + 1) B (.normal x :: cs) = locate t.node links F cs :=
    locate_link (spot_dir hB) (spot_node ..) hnames (hdirOf rfl)
  have hhead : F.dropLast.head? = some f := by
    simp only [F, dropLast_replicate]
    rfl
  have hend := head_locate hbodyPost hhead (by simp [F])
  refine ⟨t, Path.locate F (.parentDir :: post), fun loc hknown => spot_dir fun h =>
    hX (hclosed hknown h), hdirOf hend.2, fun links => ⟨?_, ?_⟩⟩
  · have hpassed : ∀ l ∈ passed loc pre, ¬(B ++ [x]) <+: l := by
      intro l hl hbelow
      have hstays : B ++ [x] <+: Path.locate loc pre :=
        below_locate_of_passed hclosed hX hbodyPre hpre hl hbelow
      rw [hpreB] at hstays
      exact hB hstays
    have hstart : ¬(B ++ [x]) <+: loc := fun h => hX (hclosed hloc h)
    have hto : locate t.node (links + 1) loc (pre ++ .normal x :: .parentDir :: post) =
        locate t.node (links + 1) (Path.locate loc pre) (.normal x :: .parentDir :: post) :=
      locateWith_spot hbodyPre hstart hpassed
    rw [hto, hpreB, hlink]
    refine locate_spot (forall_mem_cons.2 ⟨by simp, hbodyPost⟩)
      (not_prefix_of_head hXne hfX rfl) (forall_mem_cons.2 ⟨?_, fun l hl => ?_⟩)
    · exact not_prefix_of_head hXne hfX hhead
    · exact not_prefix_of_head hXne hfX (hend.1 l hl)
  · by_cases hbelow : B ++ [x] <+: N
    · obtain ⟨rest, rfl⟩ := hbelow
      have hsplit : ((B ++ [x]) ++ rest).map Component.normal =
          B.map .normal ++ .normal x :: rest.map .normal := by simp
      have hto : locate t.node (links + 1) [] (B.map .normal ++ .normal x :: rest.map .normal) =
          locate t.node (links + 1) ([] ++ B) (.normal x :: rest.map .normal) :=
        locateWith_names (spot_dir hB)
      have hrest : locate t.node links F (rest.map .normal) = some (F ++ rest) :=
        locate_names (hdirOf rfl)
      rw [hsplit, hto, nil_append, hlink, hrest]
      intro heq
      -- the other path has been taken up at least once
      have hcount : (Path.locate F.dropLast post).count f ≤ F.dropLast.count f :=
        count_locate_le hbodyPost hnew
      have hall : (F ++ rest).count f = (Path.locate F.dropLast post).count f :=
        congrArg (List.count f) (Option.some.inj heq)
      rw [count_append] at hall
      simp only [F, dropLast_replicate, count_replicate_self] at hall hcount
      omega
    · have hN : locate t.node (links + 1) [] (N.map .normal) = some ([] ++ N) :=
        locate_names (spot_dir hbelow)
      rw [hN]
      intro heq
      have hhead : N.head? = some f := (congrArg List.head? (Option.some.inj heq)).trans hend.2
      exact hfN (mem_of_head? hhead)

end Detour

/-! ## Paths -/

/-- Where a path starts from, and what it goes on with. -/
def startOf (cwd : Loc) (p : Str) : Loc := if isAbsolute p then [] else cwd

def bodyOf (p : Str) : List Component := bodyComponents (Str.split '/' p)

/-- Where a path leads when the names are taken as they stand. -/
def lexical (cwd : Loc) (p : Str) : Loc := Path.locate (startOf cwd p) (bodyOf p)

/-- The path ends in a separator or in `.`. -/
def mustBeDir (p : Str) : Bool :=
  (Str.split '/' p).getLast?.any fun piece => piece = [] || piece = ['.']

/-- What the kernel finds at a path. -/
def lookup (t : LinkTree) (links : Nat) (cwd : Loc) (p : Str) : Option Loc :=
  if p = [] then none
  else (locate t.node links (startOf cwd p) (bodyOf p)).filter fun loc =>
    (t.node loc).isSome && (!mustBeDir p || t.node loc = some .dir)

/-- The absolute path of a location. -/
def pathOf (names : Loc) : Str := '/' :: Str.join "/" names

section Paths

variable {names : Loc} {cwd : Loc} {p : Str}

theorem body_of_mem_bodyOf {c : Component} (h : c ∈ bodyOf p) : c ≠ .rootDir ∧ c ≠ .curDir := by
  obtain ⟨piece, -, rfl⟩ := mem_map.1 h
  split <;> simp

theorem bodyOf_pathOf (h : ∀ name ∈ names, IsName name) :
    bodyOf (pathOf names) = names.map .normal := by
  have hcomponents : components (pathOf names) = .rootDir :: names.map .normal := components_join h
  exact (List.cons.inj hcomponents).2

theorem mustBeDir_pathOf (h : ∀ name ∈ names, IsName name) :
    mustBeDir (pathOf names) = names.isEmpty := by
  obtain rfl | ⟨init, last, rfl⟩ := eq_nil_or_concat names
  · rfl
  · rw [concat_eq_append] at h ⊢
    have hlast := h last (mem_append_right _ mem_cons_self)
    rw [mustBeDir, pathOf, split_join h (by simp), ← cons_append, List.getLast?_concat]
    simp [hlast.ne_nil, hlast.ne_dot]

theorem startOf_pathOf : startOf cwd (pathOf names) = [] := rfl

theorem lexical_pathOf (h : ∀ name ∈ names, IsName name) : lexical cwd (pathOf names) = names := by
  have hlocate (loc : Loc) : Path.locate loc (names.map .normal) = loc ++ names := by
    induction names generalizing loc with
    | nil => exact (append_nil loc).symm
    | cons name names ih =>
      have hrest := ih (fun name hname => h name (mem_cons_of_mem _ hname)) (loc ++ [name])
      rw [append_assoc] at hrest
      exact hrest
  rw [lexical, bodyOf_pathOf h, startOf_pathOf]
  exact hlocate []

theorem isName_lexical (h : ∀ name ∈ cwd, IsName name) :
    ∀ name ∈ lexical cwd p, IsName name := by
  have hlocate (comps : List Component) (hcomps : ∀ name, .normal name ∈ comps → IsName name)
      (loc : Loc) (hloc : ∀ name ∈ loc, IsName name) :
      ∀ name ∈ Path.locate loc comps, IsName name := by
    induction comps generalizing loc with
    | nil => exact hloc
    | cons c comps ih =>
      refine ih (fun name hname => hcomps name (mem_cons_of_mem _ hname)) (enter loc c) ?_
      cases c with
      | rootDir => exact fun _ hname => absurd hname not_mem_nil
      | curDir => exact hloc
      | parentDir => exact fun name hname => hloc name ((dropLast_sublist loc).subset hname)
      | normal x =>
        intro name hname
        rcases mem_append.1 hname with hold | hself
        · exact hloc name hold
        · rw [mem_singleton.1 hself]
          exact hcomps x mem_cons_self
  refine hlocate _ (fun name hname => ?_) _ ?_
  · obtain ⟨hpiece, hnil, hdot, hdots⟩ := mem_bodyComponents hname
    exact ⟨hnil, hdot, hdots, Str.notMem_of_mem_split hpiece⟩
  · rw [startOf]
    split
    · exact fun _ hname => absurd hname not_mem_nil
    · exact h

theorem lookup_pathOf {t : LinkTree} {links : Nat} (h : ∀ name ∈ names, IsName name) :
    lookup t links cwd (pathOf names) =
      (locate t.node links [] (names.map .normal)).filter fun loc => (t.node loc).isSome := by
  have hne : pathOf names ≠ [] := cons_ne_nil _ _
  rw [lookup, if_neg hne, bodyOf_pathOf h, mustBeDir_pathOf h, startOf_pathOf]
  cases names with
  | nil =>
    have hnil : t.node ([] ++ []) = some .dir := t.root_dir
    have hroot : locate t.node links [] (([] : List Str).map .normal) = some [] := locate_names hnil
    rw [hroot, Option.filter_some_pos (by simp [t.root_dir]),
      Option.filter_some_pos (by simp [t.root_dir])]
  | cons name names => simp

theorem locate_spot_self {hX : X ≠ []} {node : Node} {links : Nat}
    (hnode : isLink (spot X hX node).node X = false) :
    locate (spot X hX node).node links [] (X.map .normal) = some X := by
  obtain rfl | ⟨B, x, rfl⟩ := eq_nil_or_concat X
  · exact absurd rfl hX
  · simp only [concat_eq_append] at hX hnode ⊢
    have hB : ¬(B ++ [x]) <+: B := fun h => absurd h.length_le (by simp)
    have hdir : (spot (B ++ [x]) hX node).node ([] ++ B) = some .dir := spot_dir hB
    have hsome : ((spot (B ++ [x]) hX node).node (B ++ [x])).isSome := by
      rw [spot_node]
      rfl
    have hend (follow : Loc → List Component → Option Loc) :
        locateWith (spot (B ++ [x]) hX node).node follow [] ((B ++ [x]).map .normal) =
          some (B ++ [x]) := by
      rw [map_append, locateWith_names hdir]
      exact locateWith_normal hdir hsome hnode
    cases links with
    | zero | succ => exact hend _

/-- Everything is a directory. -/
def full : LinkTree where
  node _ := some .dir
  root_dir := rfl
  parent_dir _ _ _ := rfl

theorem lookup_full {links : Nat} (h : p ≠ []) :
    lookup full links cwd p = some (lexical cwd p) := by
  have hcertain (loc : Loc) (comps : List Component) : Certain (fun _ => True) loc comps := by
    induction comps generalizing loc with
    | nil => trivial
    | cons c comps ih => exact ⟨fun _ => trivial, ih _⟩
  have hlocate : locate full.node links (startOf cwd p) (bodyOf p) = some (lexical cwd p) :=
    (locate_eq_lexical (fun _ _ => rfl) (fun _ hc => body_of_mem_bodyOf hc) rfl
      (hcertain _ _)).trans (locate_names rfl)
  rw [lookup, if_neg h, hlocate]
  simp [full]

/-- A path denotes the same as the absolute path of some names, in every tree in which the known
locations are directories, if and only if the names are its lexical resolution, each `..` is taken
at a known location, and what must be a directory is known to be one. -/
theorem lookup_eq_pathOf_iff {known : Loc → Prop}
    (hclosed : ∀ {loc X : Loc}, known loc → X <+: loc → known X) (hcwd : known cwd)
    (h : ∀ name ∈ names, IsName name) (links : Nat) :
    (∀ t : LinkTree, (∀ loc, known loc → t.node loc = some .dir) →
      lookup t (links + 1) cwd p = lookup t (links + 1) cwd (pathOf names)) ↔
    p ≠ [] ∧ lexical cwd p = names ∧ Certain known (startOf cwd p) (bodyOf p) ∧
      (mustBeDir p = true → known names) := by
  have hroot : known [] := hclosed hcwd nil_prefix
  have hstart : known (startOf cwd p) := by
    rw [startOf]
    split
    · exact hroot
    · exact hcwd
  constructor
  · intro hsame
    have hfull := hsame full fun _ _ => rfl
    have hnames : lookup full (links + 1) cwd (pathOf names) = some names := by
      have hlocate : locate full.node (links + 1) [] (names.map .normal) = some names :=
        locate_names rfl
      rw [lookup_pathOf h, hlocate]
      rfl
    have hp : p ≠ [] := by
      rintro rfl
      cases hfull.trans hnames
    rw [lookup_full hp, hnames] at hfull
    refine ⟨hp, Option.some.inj hfull, ?_, ?_⟩
    · by_contra huncertain
      obtain ⟨t, l, hknown, hdir, hl⟩ := exists_detour hclosed hstart
        (fun _ hc => body_of_mem_bodyOf hc) huncertain names
      have heq := hsame t hknown
      obtain ⟨hto, hnot⟩ := hl links
      rw [lookup_pathOf h, lookup, if_neg hp, hto] at heq
      have hsome : (locate t.node (links + 1) [] (names.map .normal)).filter
          (fun loc => (t.node loc).isSome) = some l := by
        rw [← heq]
        simp [hdir]
      exact hnot (Option.filter_eq_some_iff.1 hsome).1
    · intro hmust
      by_contra hunknown
      have hne : names ≠ [] := by
        rintro rfl
        exact hunknown hroot
      have heq := hsame (spot names hne (.file [])) fun loc hknown => spot_dir fun hbelow =>
        hunknown (hclosed hknown hbelow)
      have hto : locate (spot names hne (.file [])).node (links + 1) [] (names.map .normal) =
          some names := locate_spot_self (by rw [isLink, spot_node])
      rw [lookup_pathOf h, hto, lookup, if_neg hp, hmust] at heq
      have hself : Option.filter (fun loc => ((spot names hne (.file [])).node loc).isSome)
          (some names) = some names := by simp [spot_node]
      have hdir := (Option.filter_eq_some_iff.1 (heq.trans hself)).2
      rw [spot_node] at hdir
      cases hdir
  · rintro ⟨hp, rfl, hcertain, hmust⟩ t hknown
    have hto : locate t.node (links + 1) (startOf cwd p) (bodyOf p) = _ :=
      locate_eq_lexical hknown (fun _ hc => body_of_mem_bodyOf hc) (hknown _ hstart) hcertain
    have hlexical : Path.locate (startOf cwd p) (bodyOf p) = lexical cwd p := rfl
    rw [lookup_pathOf h, lookup, if_neg hp, hto, hlexical]
    cases hm : mustBeDir p with
    | false => simp
    | true =>
      have hdir := hknown _ (hmust hm)
      have hnames : locate t.node (links + 1) [] ((lexical cwd p).map .normal) =
          some (lexical cwd p) := locate_names hdir
      rw [hnames, Option.filter_some_pos (by simp [hdir]), Option.filter_some_pos (by simp [hdir])]

end Paths

end LinkTree
