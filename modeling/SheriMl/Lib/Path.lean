import SheriMl.Lib.Str

/-!
# Unix paths

Rust's `std::path` on Unix: a path is a string, compared through its
components. Repeated separators and `.` disappear from the components (except a
leading `.` of a relative path); `..` stays, since resolving it needs the file
system.
-/

namespace Path

open List

/-- `std::path::Component`. -/
inductive Component where
  | rootDir
  | curDir
  | parentDir
  | normal (name : Str)
  deriving DecidableEq

/-- The components of the pieces between separators, empty pieces and `.` skipped. -/
def bodyComponents (pieces : List Str) : List Component :=
  (pieces.filter fun s => !s.isEmpty && s != ['.']).map fun s =>
    if s = ['.', '.'] then .parentDir else .normal s

/-- `Path::is_absolute`. -/
def isAbsolute (p : Str) : Bool := Str.startsWith p "/"

/-- `Path::components`. -/
def components (p : Str) : List Component :=
  if isAbsolute p then .rootDir :: bodyComponents (Str.split '/' p)
  else match Str.split '/' p with
    | ['.'] :: rest => .curDir :: bodyComponents rest
    | pieces => bodyComponents pieces

/-- `Path::join`: an absolute path replaces, a relative one is appended. -/
def join (base p : Str) : Str :=
  if isAbsolute p then p
  else if base.isEmpty || Str.endsWith base "/" then base ++ p
  else base ++ '/' :: p

/-- `Path::file_name`. -/
def fileName (p : Str) : Option Str :=
  match (components p).getLast? with
  | some (.normal name) => some name
  | _ => none

/-- `Path::file_stem`: the file name without its last extension; a name whose
only dot comes first has no extension. -/
def fileStem (p : Str) : Option Str :=
  (fileName p).map fun name =>
    let stem := (name.reverse.dropWhile (· != '.')).drop 1 |>.reverse
    if stem.isEmpty then name else stem

/-- Whether `Path::parent` is a non-empty path. -/
def hasParent (p : Str) : Bool :=
  match (components p).getLast? with
  | none | some .rootDir => false
  | some _ => 1 < (components p).length

example : components "/srv//./a/../b/" =
    [.rootDir, .normal "srv".toList, .normal "a".toList, .parentDir, .normal "b".toList] := by
  decide

example : fileStem "/usr/bin/bash.exe" = some "bash".toList := by decide

/-! ## Names -/

/-- What a component may be a name of. -/
structure IsName (name : Str) : Prop where
  ne_nil : name ≠ []
  ne_dot : name ≠ ['.']
  ne_dots : name ≠ ['.', '.']
  noSeparator : '/' ∉ name

variable {name p : Str} {names pieces : List Str}

theorem mem_bodyComponents (h : .normal name ∈ bodyComponents pieces) :
    name ∈ pieces ∧ name ≠ [] ∧ name ≠ ['.'] ∧ name ≠ ['.', '.'] := by
  obtain ⟨piece, hpiece, heq⟩ := mem_map.1 h
  obtain ⟨hmem, hkept⟩ := mem_filter.1 hpiece
  split at heq
  next => cases heq
  next hdots =>
    obtain rfl := Component.normal.inj heq
    simp only [Bool.and_eq_true, Bool.not_eq_true', isEmpty_eq_false_iff, bne_iff_ne] at hkept
    exact ⟨hmem, hkept.1, hkept.2, hdots⟩

theorem isName_of_mem_components (h : .normal name ∈ components p) : IsName name := by
  have hbody : ∃ pieces, (∀ piece ∈ pieces, '/' ∉ piece) ∧
      .normal name ∈ bodyComponents pieces := by
    have hpieces : ∀ piece ∈ Str.split '/' p, '/' ∉ piece :=
      fun piece hpiece => Str.notMem_of_mem_split hpiece
    rw [components] at h
    split at h
    next => exact ⟨_, hpieces, (mem_cons.1 h).resolve_left (by simp)⟩
    next =>
      split at h
      next rest hsplit =>
        rw [hsplit] at hpieces
        exact ⟨rest, fun piece hpiece => hpieces piece (mem_cons_of_mem _ hpiece),
          (mem_cons.1 h).resolve_left (by simp)⟩
      next => exact ⟨_, hpieces, h⟩
  obtain ⟨pieces, hpieces, hmem⟩ := hbody
  obtain ⟨hname, hnil, hdot, hdots⟩ := mem_bodyComponents hmem
  exact ⟨hnil, hdot, hdots, hpieces name hname⟩

theorem bodyComponents_of_isName (h : ∀ name ∈ names, IsName name) :
    bodyComponents names = names.map .normal := by
  induction names with
  | nil => rfl
  | cons name names ih =>
    have hname := h name mem_cons_self
    have hrest := ih fun name hmem => h name (mem_cons_of_mem _ hmem)
    rw [bodyComponents] at hrest
    rw [bodyComponents, filter_cons_of_pos (by simp [hname.ne_nil, hname.ne_dot]),
      map_cons, if_neg hname.ne_dots, hrest, map_cons]

theorem split_join (h : ∀ name ∈ names, IsName name) (hne : names ≠ []) :
    Str.split '/' ('/' :: Str.join "/" names) = [] :: names := by
  have hfirst : ([] ++ '/' :: Str.join "/" names).splitOn '/' =
      [] :: (Str.join "/" names).splitOn '/' :=
    splitOn_append_cons_self_of_not_mem (by simp) _
  rw [Str.split, ← nil_append ('/' :: _), hfirst]
  exact congrArg _ (splitOn_intercalate '/' (fun name hname => (h name hname).noSeparator) hne)

theorem components_join (h : ∀ name ∈ names, IsName name) :
    components ('/' :: Str.join "/" names) = .rootDir :: names.map .normal := by
  have habsolute : isAbsolute ('/' :: Str.join "/" names) = true := rfl
  rw [components, habsolute, if_pos rfl]
  cases names with
  | nil => rfl
  | cons name names =>
    rw [split_join h (by simp), ← bodyComponents_of_isName h]
    rfl

end Path
