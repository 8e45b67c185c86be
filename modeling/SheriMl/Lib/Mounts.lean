import SheriMl.Lib.LinkTree

/-!
# Mounts over a tree

Bind mounts of one tree on itself, applied in order. Of the mounts at or above a location the last
decides what is there and whether it may be written (`cover`). Where every mount is of a location on
itself, or of a device over something else, a path leads where it led before, if it still leads
anywhere (`locate_of_locate_view`).
-/

open LinkTree (Node)

/-- What is at `source`, and below it, shows at `dest`. -/
structure Bound where
  source : Loc
  dest : Loc
  writable : Bool

namespace Mounts

open List

/-- The last mount at or above a location. -/
def cover (bounds : List Bound) (loc : Loc) : Option Bound :=
  bounds.reverse.find? fun m => m.dest.isPrefixOf loc

/-- What is at a location. -/
def view (node : Loc → Option Node) (bounds : List Bound) (loc : Loc) : Option Node :=
  match cover bounds loc with
  | none => node loc
  | some m => node (m.source ++ loc.drop m.dest.length)

def writableAt (bounds : List Bound) (loc : Loc) : Bool :=
  ((cover bounds loc).map Bound.writable).getD false

/-- What is there may be written, or something may be created there. -/
def permits (node : Loc → Option Node) (bounds : List Bound) (loc : Loc) : Bool :=
  writableAt bounds (if (view node bounds loc).isSome then loc else loc.dropLast)

variable {node : Loc → Option Node} {bounds bounds' : List Bound} {loc loc' l : Loc} {m : Bound}
  {links : Nat} {comps : List Path.Component} {t : LinkTree}

/-! ## The last mount -/

theorem cover_spec (h : cover bounds loc = some m) : m ∈ bounds ∧ m.dest <+: loc := by
  rw [cover] at h
  have hfound := List.find?_some h
  exact ⟨mem_reverse.1 (mem_of_find?_eq_some h), isPrefixOf_iff_prefix.1 hfound⟩

theorem view_of_cover_none (h : cover bounds loc = none) : view node bounds loc = node loc := by
  rw [view, h]

theorem view_of_cover (node : Loc → Option Node) (h : cover bounds loc = some m) :
    ∃ rest, m.dest ++ rest = loc ∧ view node bounds loc = node (m.source ++ rest) := by
  obtain ⟨-, rest, rfl⟩ := cover_spec h
  refine ⟨rest, rfl, ?_⟩
  rw [view, h]
  dsimp only
  rw [drop_left]

theorem cover_append : cover (bounds ++ bounds') loc =
    (cover bounds' loc).or (cover bounds loc) := by
  rw [cover, reverse_append, List.find?_append]
  rfl

theorem cover_isSome_iff : (cover bounds loc).isSome ↔ ∃ m ∈ bounds, m.dest <+: loc := by
  rw [cover, List.find?_isSome]
  simp [List.isPrefixOf_iff_prefix]

theorem cover_eq_none_iff : cover bounds loc = none ↔ ∀ m ∈ bounds, ¬ m.dest <+: loc := by
  rw [cover, List.find?_eq_none]
  simp [List.isPrefixOf_iff_prefix]

/-- The last mount above a location is also the last above one on the way from it. -/
theorem cover_of_below (h : cover bounds loc = some m) (hdest : m.dest <+: loc')
    (hloc : loc' <+: loc) : cover bounds loc' = some m := by
  obtain ⟨-, before, after, hlist, hbefore⟩ := List.find?_eq_some_iff_append.1 h
  refine List.find?_eq_some_iff_append.2
    ⟨List.isPrefixOf_iff_prefix.2 hdest, before, after, hlist, fun m' hm' => ?_⟩
  have hnot := hbefore m' hm'
  rw [Bool.not_eq_true', ← Bool.not_eq_true, isPrefixOf_iff_prefix] at hnot ⊢
  exact fun hbelow => hnot (hbelow.trans hloc)

/-- Where nothing is, whatever is created belongs to the same mount. -/
theorem permits_eq (hsources : ∀ m ∈ bounds, (node m.source).isSome) :
    permits node bounds loc = writableAt bounds loc := by
  rw [permits]
  split
  · rfl
  next hnone =>
    have hview : view node bounds loc = none := Option.not_isSome_iff_eq_none.1 hnone
    have hbelow : loc.dropLast <+: loc := dropLast_prefix loc
    rw [writableAt, writableAt]
    cases hcover : cover bounds loc with
    | none =>
      rw [cover_eq_none_iff] at hcover
      rw [cover_eq_none_iff.2 fun m hm hdest => hcover m hm (hdest.trans hbelow)]
    | some m =>
      obtain ⟨rest, hrest, hrestView⟩ := view_of_cover node hcover
      have hne : rest ≠ [] := by
        rintro rfl
        have hsome := hsources m (cover_spec hcover).1
        rw [← append_nil m.source, ← hrestView, hview] at hsome
        cases hsome
      have hdest : m.dest <+: loc.dropLast := by
        rw [← hrest, dropLast_append_of_ne_nil hne]
        exact prefix_append _ _
      rw [cover_of_below hcover hdest hbelow]

/-! ## Walks under mounts -/

/-- A mount of a location on itself, or of a device over what is no link. -/
def Masks (node : Loc → Option Node) (m : Bound) : Prop :=
  m.source = m.dest ∨ node m.source = some .device ∧ (node m.dest).isSome ∧
    LinkTree.isLink node m.dest = false

/-- There is nothing below a device. -/
theorem eq_nil_of_device {rest : Loc} (hdevice : t.node loc = some .device)
    (h : (t.node (loc ++ rest)).isSome) : rest = [] := by
  induction rest using List.reverseRecOn with
  | nil => rfl
  | append_singleton rest name ih =>
    rw [← append_assoc] at h
    have hdir := t.parent_dir _ _ h
    have hrest := ih (by rw [hdir]; rfl)
    subst hrest
    rw [append_nil, hdevice] at hdir
    cases hdir

/-- Something that is seen is what was there, or is a device at a mount. -/
theorem view_of_isSome (hmasks : ∀ m ∈ bounds, Masks t.node m)
    (h : (view t.node bounds loc).isSome) :
    view t.node bounds loc = t.node loc ∨ view t.node bounds loc = some .device ∧
      (t.node loc).isSome ∧ LinkTree.isLink t.node loc = false := by
  cases hcover : cover bounds loc with
  | none => exact .inl (view_of_cover_none hcover)
  | some m =>
    obtain ⟨rest, hrest, hview⟩ := view_of_cover t.node hcover
    rw [hview] at h ⊢
    obtain hsame | ⟨hdevice, hsome, hlink⟩ := hmasks m (cover_spec hcover).1
    · exact .inl (by rw [hsame, hrest])
    · have hnil := eq_nil_of_device hdevice h
      subst hnil
      rw [append_nil] at hrest ⊢
      rw [hdevice, ← hrest]
      exact .inr ⟨rfl, hsome, hlink⟩

theorem node_of_view_dir (hmasks : ∀ m ∈ bounds, Masks t.node m)
    (h : view t.node bounds loc = some .dir) : t.node loc = some .dir := by
  obtain hsame | ⟨hdevice, -⟩ := view_of_isSome hmasks (by rw [h]; rfl)
  · rw [← hsame, h]
  · rw [h] at hdevice
    cases hdevice

/-- In a directory that is seen nothing is hidden. -/
theorem node_of_view_none {name : Str} (hmasks : ∀ m ∈ bounds, Masks t.node m)
    (hdir : view t.node bounds loc = some .dir)
    (h : view t.node bounds (loc ++ [name]) = none) : t.node (loc ++ [name]) = none := by
  cases hcover : cover bounds (loc ++ [name]) with
  | none => rwa [view_of_cover_none hcover] at h
  | some m =>
    obtain ⟨rest, hrest, hview⟩ := view_of_cover t.node hcover
    rw [hview] at h
    obtain hsame | ⟨hdevice, -⟩ := hmasks m (cover_spec hcover).1
    · rwa [hsame, hrest] at h
    · -- the directory would be below the device
      obtain rfl | ⟨init, last, rfl⟩ := eq_nil_or_concat rest
      · rw [append_nil, hdevice] at h
        cases h
      · rw [concat_eq_append, ← append_assoc] at hrest
        have hloc : m.dest ++ init = loc := (append_inj' hrest rfl).1
        have hbelow : m.dest <+: loc := ⟨init, hloc⟩
        obtain ⟨rest', hrest', hview'⟩ := view_of_cover t.node
          (cover_of_below hcover hbelow (prefix_append loc [name]))
        rw [hdir] at hview'
        have hnil := eq_nil_of_device hdevice (by rw [← hview']; rfl)
        rw [hnil, append_nil, hdevice] at hview'
        cases hview'

/-- A path leads where it led before the mounts, if it leads anywhere. -/
theorem walk_of_view (hmasks : ∀ m ∈ bounds, Masks t.node m)
    (h : LinkTree.Walk (view t.node bounds) links loc comps l) :
    LinkTree.Walk t.node links loc comps l := by
  induction h with
  | nil => exact .nil
  | rootDir hdir _ ih => exact .rootDir (node_of_view_dir hmasks hdir) ih
  | curDir hdir _ ih => exact .curDir (node_of_view_dir hmasks hdir) ih
  | parentDir hdir _ ih => exact .parentDir (node_of_view_dir hmasks hdir) ih
  | normal hdir hsome hlink _ ih =>
    have hnode := node_of_view_dir hmasks hdir
    obtain hsame | ⟨-, hsome', hlink'⟩ := view_of_isSome hmasks hsome
    · rw [hsame] at hsome
      rw [LinkTree.isLink, hsame] at hlink
      exact .normal hnode hsome hlink ih
    · exact .normal hnode hsome' hlink' ih
  | link hdir hlink _ ih =>
    obtain hsame | ⟨hdevice, -⟩ := view_of_isSome hmasks (by rw [hlink]; rfl)
    · exact .link (node_of_view_dir hmasks hdir) (by rw [← hsame, hlink]) ih
    · rw [hlink] at hdevice
      cases hdevice
  | missing hdir hnone =>
    exact .missing (node_of_view_dir hmasks hdir) (node_of_view_none hmasks hdir hnone)

theorem locate_of_locate_view (hmasks : ∀ m ∈ bounds, Masks t.node m)
    (h : LinkTree.locate (view t.node bounds) links loc comps = some l) :
    LinkTree.locate t.node links loc comps = some l :=
  LinkTree.locate_eq_some_iff.2 (walk_of_view hmasks (LinkTree.locate_eq_some_iff.1 h))

end Mounts
