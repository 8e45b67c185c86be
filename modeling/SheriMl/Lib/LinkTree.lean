import SheriMl.Lib.FileTree

/-!
# Trees with symbolic links

A path is walked as the kernel does (`locate`): every step needs a directory, a link is replaced by
its target wherever it is met, and only so many links are followed. The last component may be
missing; where it is missing is where it would be created. What is at a location may also be asked
of a changed tree, so that the walk is over any such function.
-/

inductive LinkTree.Node where
  | file (contents : Str)
  | dir
  | link (target : Str)
  | device
  deriving DecidableEq

open LinkTree (Node)

/-- What is at each location; whatever has a name is in a directory. -/
structure LinkTree where
  node : Loc → Option Node
  root_dir : node [] = some .dir
  parent_dir : ∀ loc name, (node (loc ++ [name])).isSome → node loc = some .dir

namespace LinkTree

open List

def ofList (entries : List (Loc × Node)) (hroot : entries.lookup [] = some .dir)
    (hparents : ∀ e ∈ entries, e.1 ≠ [] → entries.lookup e.1.dropLast = some .dir) : LinkTree where
  node loc := entries.lookup loc
  root_dir := hroot
  parent_dir loc name h := by
    obtain ⟨node, hnode⟩ := Option.isSome_iff_exists.1 h
    obtain ⟨before, after, hentries, -⟩ := lookup_eq_some_iff.1 hnode
    have hmem : (loc ++ [name], node) ∈ entries := by simp [hentries]
    have hparent := hparents _ hmem (by simp)
    rwa [dropLast_concat] at hparent

/-- The walk, if `follow` goes on from a link. -/
def locateWith (node : Loc → Option Node) (follow : Loc → List Path.Component → Option Loc) :
    Loc → List Path.Component → Option Loc
  | loc, [] => some loc
  | loc, c :: cs =>
    if node loc = some .dir then
      match c with
      | .rootDir => locateWith node follow [] cs
      | .curDir => locateWith node follow loc cs
      | .parentDir => locateWith node follow loc.dropLast cs
      | .normal name =>
        match node (loc ++ [name]) with
        | some (.link target) => follow loc (Path.components target ++ cs)
        | some (.file _) | some .dir | some .device => locateWith node follow (loc ++ [name]) cs
        | none => if cs = [] then some (loc ++ [name]) else none
    else none

/-- The location that components lead to, over at most so many links. -/
def locate (node : Loc → Option Node) : Nat → Loc → List Path.Component → Option Loc
  | 0 => locateWith node fun _ _ => none
  | links + 1 => locateWith node (locate node links)

/-- The location of a path that exists. -/
def resolve (node : Loc → Option Node) (links : Nat) (p : Str) : Option Loc :=
  (locate node links [] (Path.components p)).filter fun loc => (node loc).isSome

/-- What is at a path, where a link that comes last is not followed. -/
def lstat (node : Loc → Option Node) (links : Nat) (p : Str) : Option Node :=
  match (Path.components p).getLast? with
  | some (.normal name) =>
    (locate node links [] (Path.components p).dropLast).bind fun loc =>
      if node loc = some .dir then node (loc ++ [name]) else none
  | some .rootDir | some .curDir | some .parentDir | none => (resolve node links p).bind node

def isLink (node : Loc → Option Node) (loc : Loc) : Bool :=
  match node loc with
  | some (.link _) => true
  | some (.file _) | some .dir | some .device | none => false

/-- No link is met along names from a location. -/
def Straight (node : Loc → Option Node) : Loc → List Str → Prop
  | _, [] => True
  | loc, name :: names => isLink node (loc ++ [name]) = false ∧ Straight node (loc ++ [name]) names

/-- A walk, step by step. -/
inductive Walk (node : Loc → Option Node) : Nat → Loc → List Path.Component → Loc → Prop
  | nil {links loc} : Walk node links loc [] loc
  | rootDir {links loc cs l} : node loc = some .dir → Walk node links [] cs l →
      Walk node links loc (.rootDir :: cs) l
  | curDir {links loc cs l} : node loc = some .dir → Walk node links loc cs l →
      Walk node links loc (.curDir :: cs) l
  | parentDir {links loc cs l} : node loc = some .dir → Walk node links loc.dropLast cs l →
      Walk node links loc (.parentDir :: cs) l
  | normal {links loc name cs l} : node loc = some .dir → (node (loc ++ [name])).isSome →
      isLink node (loc ++ [name]) = false → Walk node links (loc ++ [name]) cs l →
      Walk node links loc (.normal name :: cs) l
  | link {links loc name target cs l} : node loc = some .dir →
      node (loc ++ [name]) = some (.link target) →
      Walk node links loc (Path.components target ++ cs) l →
      Walk node (links + 1) loc (.normal name :: cs) l
  | missing {links loc name} : node loc = some .dir → node (loc ++ [name]) = none →
      Walk node links loc [.normal name] (loc ++ [name])

variable {node : Loc → Option Node} {links : Nat} {loc l : Loc}
  {comps comps' : List Path.Component} {name : Str} {names : List Str} {t : LinkTree}

theorem walk_of_locateWith {follow : Loc → List Path.Component → Option Loc}
    (hfollow : ∀ {loc name target cs l}, node loc = some .dir →
      node (loc ++ [name]) = some (.link target) →
      follow loc (Path.components target ++ cs) = some l →
      Walk node links loc (.normal name :: cs) l)
    (h : locateWith node follow loc comps = some l) : Walk node links loc comps l := by
  induction comps generalizing loc with
  | nil =>
    obtain rfl := Option.some.inj h
    exact .nil
  | cons c cs ih =>
    unfold locateWith at h
    split at h
    next hdir =>
      cases c with
      | rootDir => exact .rootDir hdir (ih h)
      | curDir => exact .curDir hdir (ih h)
      | parentDir => exact .parentDir hdir (ih h)
      | normal name =>
        dsimp only at h
        split at h
        next target hnode => exact hfollow hdir hnode h
        next hnode => exact .normal hdir (by rw [hnode]; rfl) (by rw [isLink, hnode]) (ih h)
        next hnode => exact .normal hdir (by rw [hnode]; rfl) (by rw [isLink, hnode]) (ih h)
        next hnode => exact .normal hdir (by rw [hnode]; rfl) (by rw [isLink, hnode]) (ih h)
        next hnode =>
          split at h
          next hcs =>
            obtain rfl := Option.some.inj h
            rw [hcs]
            exact .missing hdir hnode
          next => cases h
    next => cases h

theorem walk_of_locate (h : locate node links loc comps = some l) :
    Walk node links loc comps l := by
  induction links generalizing loc comps l with
  | zero =>
    refine walk_of_locateWith ?_ h
    rintro loc name target cs l - - ⟨⟩
  | succ links ih => exact walk_of_locateWith (fun hdir hnode h => .link hdir hnode (ih h)) h

/-- A walk over an existing component that is no link goes on from there. -/
theorem locateWith_normal {follow : Loc → List Path.Component → Option Loc}
    (hdir : node loc = some .dir) (hsome : (node (loc ++ [name])).isSome)
    (hlink : isLink node (loc ++ [name]) = false) :
    locateWith node follow loc (.normal name :: comps) =
      locateWith node follow (loc ++ [name]) comps := by
  rw [isLink] at hlink
  rw [Option.isSome_iff_ne_none] at hsome
  conv_lhs => unfold locateWith
  rw [if_pos hdir]
  dsimp only
  split at hlink
  next => cases hlink
  next => rfl
  next => rfl
  next => rfl
  next hnode => exact absurd hnode hsome

theorem locate_of_walk (h : Walk node links loc comps l) :
    locate node links loc comps = some l := by
  have hsame {links : Nat} {loc loc' : Loc} {comps comps' : List Path.Component}
      (h : ∀ follow, locateWith node follow loc comps = locateWith node follow loc' comps') :
      locate node links loc comps = locate node links loc' comps' := by
    cases links with
    | zero | succ => exact h _
  induction h with
  | @nil links => cases links with | zero | succ => rfl
  | rootDir hdir _ ih | curDir hdir _ ih | parentDir hdir _ ih =>
    rw [← ih]
    refine hsame fun follow => ?_
    conv_lhs => unfold locateWith
    rw [if_pos hdir]
  | normal hdir hsome hlink _ ih =>
    rw [← ih]
    exact hsame fun follow => locateWith_normal hdir hsome hlink
  | link hdir hnode _ ih =>
    rw [locate]
    unfold locateWith
    rw [if_pos hdir]
    dsimp only
    rw [hnode]
    exact ih
  | @missing links loc name hdir hnode =>
    have hlast (follow : Loc → List Path.Component → Option Loc) :
        locateWith node follow loc [.normal name] = some (loc ++ [name]) := by
      unfold locateWith
      rw [if_pos hdir]
      dsimp only
      rw [hnode, if_pos rfl]
    cases links with
    | zero | succ => exact hlast _

theorem locate_eq_some_iff : locate node links loc comps = some l ↔ Walk node links loc comps l :=
  ⟨walk_of_locate, locate_of_walk⟩

/-! ## Where walks end -/

theorem Walk.isLink_eq_false (h : Walk t.node links loc comps l)
    (hloc : isLink t.node loc = false) : isLink t.node l = false := by
  induction h with
  | nil => exact hloc
  | rootDir _ _ ih => exact ih (by rw [isLink, t.root_dir])
  | curDir _ _ ih => exact ih hloc
  | @parentDir links loc cs l hdir _ ih =>
    refine ih ?_
    obtain rfl | ⟨init, name, rfl⟩ := eq_nil_or_concat loc
    · exact hloc
    · rw [concat_eq_append] at hdir ⊢
      rw [dropLast_concat, isLink, t.parent_dir init name (by rw [hdir]; rfl)]
  | normal _ _ hlink _ ih => exact ih hlink
  | link _ _ _ ih => exact ih hloc
  | missing _ hnode => rw [isLink, hnode]

theorem Walk.of_append (h : Walk node links loc (comps ++ comps') l) :
    ∃ links' mid, Walk node links loc comps mid ∧ Walk node links' mid comps' l := by
  generalize happend : comps ++ comps' = all at h
  induction h generalizing comps with
  | nil =>
    obtain ⟨rfl, rfl⟩ := append_eq_nil_iff.1 happend
    exact ⟨links, _, .nil, .nil⟩
  | @rootDir links loc cs l hdir hrest ih =>
    obtain ⟨rfl, rfl⟩ | ⟨comps, rfl, hcs⟩ := append_eq_cons_iff.1 happend
    · exact ⟨links, _, .nil, .rootDir hdir hrest⟩
    · obtain ⟨links', mid, hmid, hl⟩ := ih hcs.symm
      exact ⟨links', mid, .rootDir hdir hmid, hl⟩
  | @curDir links loc cs l hdir hrest ih =>
    obtain ⟨rfl, rfl⟩ | ⟨comps, rfl, hcs⟩ := append_eq_cons_iff.1 happend
    · exact ⟨links, _, .nil, .curDir hdir hrest⟩
    · obtain ⟨links', mid, hmid, hl⟩ := ih hcs.symm
      exact ⟨links', mid, .curDir hdir hmid, hl⟩
  | @parentDir links loc cs l hdir hrest ih =>
    obtain ⟨rfl, rfl⟩ | ⟨comps, rfl, hcs⟩ := append_eq_cons_iff.1 happend
    · exact ⟨links, _, .nil, .parentDir hdir hrest⟩
    · obtain ⟨links', mid, hmid, hl⟩ := ih hcs.symm
      exact ⟨links', mid, .parentDir hdir hmid, hl⟩
  | @normal links loc name cs l hdir hsome hlink hrest ih =>
    obtain ⟨rfl, rfl⟩ | ⟨comps, rfl, hcs⟩ := append_eq_cons_iff.1 happend
    · exact ⟨links, _, .nil, .normal hdir hsome hlink hrest⟩
    · obtain ⟨links', mid, hmid, hl⟩ := ih hcs.symm
      exact ⟨links', mid, .normal hdir hsome hlink hmid, hl⟩
  | @link links loc name target cs l hdir hnode hrest ih =>
    obtain ⟨rfl, rfl⟩ | ⟨comps, rfl, hcs⟩ := append_eq_cons_iff.1 happend
    · exact ⟨links + 1, _, .nil, .link hdir hnode hrest⟩
    · have hall : (Path.components target ++ comps) ++ comps' = Path.components target ++ cs := by
        rw [append_assoc, hcs]
      obtain ⟨links', mid, hmid, hl⟩ := ih hall
      exact ⟨links', mid, .link hdir hnode hmid, hl⟩
  | @missing links loc name hdir hnode =>
    obtain ⟨rfl, rfl⟩ | ⟨comps, rfl, hcs⟩ := append_eq_cons_iff.1 happend
    · exact ⟨links, _, .nil, .missing hdir hnode⟩
    · obtain ⟨rfl, rfl⟩ := append_eq_nil_iff.1 hcs.symm
      exact ⟨links, _, .missing hdir hnode, .nil⟩

theorem Walk.eq_append (h : Walk node links loc (names.map .normal) l)
    (hnames : Straight node loc names) : l = loc ++ names := by
  induction names generalizing links loc with
  | nil =>
    cases h
    exact (append_nil _).symm
  | cons name names ih =>
    obtain ⟨hlink, hnames⟩ := hnames
    rw [map_cons] at h
    generalize hcs : names.map Path.Component.normal = cs at h
    cases h with
    | normal _ _ _ hrest =>
      subst hcs
      rw [ih hrest hnames, append_assoc]
      rfl
    | link _ hnode _ =>
      rw [isLink, hnode] at hlink
      cases hlink
    | missing _ hnode => rw [map_eq_nil_iff.1 hcs]

theorem Walk.isSome_of_ne_nil (h : Walk node links loc comps l) (hcomps : comps ≠ []) :
    (node loc).isSome := by
  cases h with
  | nil => exact absurd rfl hcomps
  | rootDir hdir | curDir hdir | parentDir hdir | normal hdir | link hdir | missing hdir =>
    rw [hdir]
    rfl

/-- What leads to an existing path exists. -/
theorem resolve_of_below {p base : Str} (h : (resolve node links p).isSome)
    (hbase : Path.components base <+: Path.components p) : (resolve node links base).isSome := by
  obtain ⟨l, hl⟩ := Option.isSome_iff_exists.1 h
  obtain ⟨hlocate, hsome⟩ := Option.filter_eq_some_iff.1 hl
  obtain ⟨rest, hrest⟩ := hbase
  rw [← hrest] at hlocate
  obtain ⟨links', mid, hmid, hl⟩ := (walk_of_locate hlocate).of_append
  refine Option.isSome_iff_exists.2 ⟨mid, Option.filter_eq_some_iff.2 ⟨locate_of_walk hmid, ?_⟩⟩
  by_cases hnil : rest = []
  · subst hnil
    cases hl
    exact hsome
  · exact hl.isSome_of_ne_nil hnil

/-- A path that goes on from an existing one by names, over no link, is below it. -/
theorem eq_append_of_locate {p base : Str} {dest : Loc} (hbase : resolve node links base = some dest)
    (hp : Path.components p = Path.components base ++ names.map .normal)
    (hnames : Straight node dest names)
    (h : locate node links [] (Path.components p) = some l) : l = dest ++ names := by
  rw [hp] at h
  obtain ⟨links', mid, hmid, hl⟩ := (walk_of_locate h).of_append
  have hdest := (Option.filter_eq_some_iff.1 hbase).1
  obtain rfl : mid = dest := Option.some.inj ((locate_of_walk hmid).symm.trans hdest)
  exact hl.eq_append hnames

end LinkTree
