import Mathlib.Algebra.Order.BigOperators.Group.List
import Mathlib.Algebra.Order.Group.Nat
import SheriMl.NetworkProxy.Policy

/-!
# Managed constraints

`validate_policy_against_constraints` of `network-proxy/src/state.rs`, and whether
the hosts that a validated `allowed_domains` list matches are among those that the
managed list matches.

Validation compares the patterns through the host parser, compilation normalises
them by hand. The comparison is sound for the globs its patterns stand for
(`covers_of_allows`). Where the two read an entry differently, such as one with a
port, which the host parser rejects and validation reads as the empty host, a list
may pass that matches more.
-/

namespace SheriMl.NetworkProxy

inductive NetworkMode where
  | limited
  | full
  deriving DecidableEq

def networkModeRank : NetworkMode → Nat
  | .limited => 0
  | .full => 1

/-- `{:?}`. -/
def NetworkMode.debug : NetworkMode → Str
  | .limited => "Limited"
  | .full => "Full"

structure NetworkProxySettings where
  enabled : Bool
  mode : NetworkMode
  allowUpstreamProxy : Bool
  dangerouslyAllowNonLoopbackProxy : Bool
  dangerouslyAllowNonLoopbackAdmin : Bool
  allowedDomains : List Str
  deniedDomains : List Str
  allowUnixSockets : List Str
  allowLocalBinding : Bool
  deriving DecidableEq

structure NetworkProxyConfig where
  network : NetworkProxySettings
  deriving DecidableEq

structure NetworkProxyConstraints where
  enabled : Option Bool
  mode : Option NetworkMode
  allowUpstreamProxy : Option Bool
  dangerouslyAllowNonLoopbackProxy : Option Bool
  dangerouslyAllowNonLoopbackAdmin : Option Bool
  allowedDomains : Option (List Str)
  deniedDomains : Option (List Str)
  allowUnixSockets : Option (List Str)
  allowLocalBinding : Option Bool
  deriving DecidableEq

/-- `NetworkProxyConstraintError::InvalidValue`. -/
structure NetworkProxyConstraintError where
  fieldName : Str
  candidate : Str
  allowed : Str
  deriving DecidableEq

def check (ok : Bool) (e : NetworkProxyConstraintError) : Except NetworkProxyConstraintError Unit :=
  if ok then .ok () else .error e

def validateFlag (fieldName : Str) (candidate : Bool) (constraint : Option Bool) :
    Except NetworkProxyConstraintError Unit :=
  check (!(candidate && constraint = some false))
    ⟨fieldName, "true", "false (disabled by managed config)"⟩

def validateMode (candidate : NetworkMode) (constraint : Option NetworkMode) :
    Except NetworkProxyConstraintError Unit :=
  match constraint with
  | none => .ok ()
  | some maxMode =>
    check (networkModeRank candidate ≤ networkModeRank maxMode)
      ⟨"network.mode", candidate.debug, maxMode.debug ++ (" or more restrictive" : Str)⟩

section Validate

variable (urlHost : UrlHost) (debug : List Str → Str)

/-- The entries that no managed pattern allows. -/
def invalidAllowed (managed candidate : List Str) : List Str :=
  candidate.filter fun entry =>
    !managed.any fun m => (DomainPattern.parseForConstraints urlHost m).allows
      (DomainPattern.parseForConstraints urlHost entry)

def validateAllowedDomains (candidate : List Str) (constraint : Option (List Str)) :
    Except NetworkProxyConstraintError Unit :=
  match constraint with
  | none => .ok ()
  | some managed =>
    let invalid := invalidAllowed urlHost managed candidate
    check invalid.isEmpty
      ⟨"network.allowed_domains", debug invalid, "subset of managed allowed_domains"⟩

def validateDeniedDomains (candidate : List Str) (constraint : Option (List Str)) :
    Except NetworkProxyConstraintError Unit :=
  match constraint with
  | none => .ok ()
  | some required =>
    let missing := (required.map Str.toAsciiLowercase).dedup.filter fun entry =>
      entry ∉ candidate.map Str.toAsciiLowercase
    check missing.isEmpty
      ⟨"network.denied_domains", "missing managed denied_domains entries", debug missing⟩

def validateAllowUnixSockets (candidate : List Str) (constraint : Option (List Str)) :
    Except NetworkProxyConstraintError Unit :=
  match constraint with
  | none => .ok ()
  | some allowed =>
    let invalid := candidate.filter fun entry =>
      Str.toAsciiLowercase entry ∉ allowed.map Str.toAsciiLowercase
    check invalid.isEmpty
      ⟨"network.allow_unix_sockets", debug invalid, "subset of managed allow_unix_sockets"⟩

def validatePolicyAgainstConstraints (config : NetworkProxyConfig)
    (constraints : NetworkProxyConstraints) : Except NetworkProxyConstraintError Unit := do
  let network := config.network
  validateFlag "network.enabled" network.enabled constraints.enabled
  validateMode network.mode constraints.mode
  validateFlag "network.allow_upstream_proxy" network.allowUpstreamProxy
    constraints.allowUpstreamProxy
  validateFlag "network.dangerously_allow_non_loopback_admin"
    network.dangerouslyAllowNonLoopbackAdmin constraints.dangerouslyAllowNonLoopbackAdmin
  validateFlag "network.dangerously_allow_non_loopback_proxy"
    network.dangerouslyAllowNonLoopbackProxy constraints.dangerouslyAllowNonLoopbackProxy
  validateFlag "network.allow_local_binding" network.allowLocalBinding
    constraints.allowLocalBinding
  validateAllowedDomains urlHost debug network.allowedDomains constraints.allowedDomains
  validateDeniedDomains debug network.deniedDomains constraints.deniedDomains
  validateAllowUnixSockets debug network.allowUnixSockets constraints.allowUnixSockets

end Validate

section Allowed

variable {urlHost : UrlHost} {debug : List Str → Str} {config : NetworkProxyConfig}
  {constraints : NetworkProxyConstraints} {managed : List Str} {entry : Str}

theorem exists_allows_of_validate
    (h : validatePolicyAgainstConstraints urlHost debug config constraints = .ok ())
    (hmanaged : constraints.allowedDomains = some managed)
    (hentry : entry ∈ config.network.allowedDomains) :
    ∃ m ∈ managed, (DomainPattern.parseForConstraints urlHost m).allows
      (DomainPattern.parseForConstraints urlHost entry) = true := by
  unfold validatePolicyAgainstConstraints at h
  obtain ⟨-, -, h⟩ := Result.exists_of_bind_eq_ok h
  obtain ⟨-, -, h⟩ := Result.exists_of_bind_eq_ok h
  obtain ⟨-, -, h⟩ := Result.exists_of_bind_eq_ok h
  obtain ⟨-, -, h⟩ := Result.exists_of_bind_eq_ok h
  obtain ⟨-, -, h⟩ := Result.exists_of_bind_eq_ok h
  obtain ⟨-, -, h⟩ := Result.exists_of_bind_eq_ok h
  obtain ⟨⟨⟩, h, -⟩ := Result.exists_of_bind_eq_ok h
  unfold validateAllowedDomains at h
  rw [hmanaged] at h
  simp only [check] at h
  split at h
  next hempty =>
    have hnot : entry ∉ invalidAllowed urlHost managed config.network.allowedDomains := by
      rw [List.isEmpty_iff.1 hempty]
      simp
    simpa [invalidAllowed, hentry] using hnot
  · cases h

theorem validateMode_of_validate
    (h : validatePolicyAgainstConstraints urlHost debug config constraints = .ok ()) :
    validateMode config.network.mode constraints.mode = .ok () := by
  unfold validatePolicyAgainstConstraints at h
  obtain ⟨-, -, h⟩ := Result.exists_of_bind_eq_ok h
  obtain ⟨⟨⟩, hmode, -⟩ := Result.exists_of_bind_eq_ok h
  exact hmode

theorem validate_withMode {mode : NetworkMode}
    (h : validatePolicyAgainstConstraints urlHost debug config constraints = .ok ())
    (hmode : validateMode mode constraints.mode = .ok ()) :
    validatePolicyAgainstConstraints urlHost debug ⟨{ config.network with mode }⟩ constraints =
      .ok () := by
  unfold validatePolicyAgainstConstraints at h ⊢
  obtain ⟨⟨⟩, henabled, h⟩ := Result.exists_of_bind_eq_ok h
  obtain ⟨-, -, h⟩ := Result.exists_of_bind_eq_ok h
  dsimp only at henabled h ⊢
  rw [henabled, hmode]
  exact h

end Allowed

/-! ## Inclusion -/

def Included (G : Glob.Engine) (a b : Glob.GlobSet) : Prop :=
  ∀ host, a.isMatch G host = true → b.isMatch G host = true

/-- Among the managed globs are `*`, the glob itself or the hosts under a domain it ends with. -/
def Covers (G : Glob.Engine) (managed : List Str) (g : Str) : Prop :=
  ("*" : Str) ∈ managed ∨ g ∈ managed ∨
    ∃ x d, g = x ++ '.' :: d ∧ ("?*." : Str) ++ d ∈ managed ∧ G.valid x = true ∧
      G.valid d = true ∧ Glob.NoRecursion x ∧ Glob.NoRecursion d ∧ G.isMatch x [] = false

/-- No glob syntax but a `*` alone or a `?*.` in front. -/
def PlainGlob (g : Str) : Prop :=
  g = "*" ∨ Glob.Literal g ∨ ∃ d, Glob.Literal d ∧ g = ("?*." : Str) ++ d

def DomainPattern.globs : DomainPattern → List Str
  | any => ["*"]
  | exact domain => [normalizeDomain domain]
  | subdomainsOnly domain => [("?*." : Str) ++ normalizeDomain domain]
  | apexAndSubdomains domain =>
    [normalizeDomain domain, ("?*." : Str) ++ normalizeDomain domain]

/-- Compilation makes of the entry what the pattern that validation reads stands for. -/
def ReadAlike (urlHost : UrlHost) (entry : Str) : Prop :=
  expandDomainPattern (normalizePattern entry) =
    (DomainPattern.parseForConstraints urlHost entry).globs

section Cover

variable {G : Glob.Engine} {managed managed' : List Str} {g d e u v host : Str}

theorem Covers.mono (h : Covers G managed g) (hsub : ∀ m ∈ managed, m ∈ managed') :
    Covers G managed' g := by
  obtain hany | hmem | ⟨x, d, hg, hmem, hrest⟩ := h
  · exact .inl (hsub _ hany)
  · exact .inr (.inl (hsub g hmem))
  · exact .inr (.inr ⟨x, d, hg, hsub _ hmem, hrest⟩)

/-- A glob that managed ones cover matches nothing that they do not match. -/
theorem exists_isMatch_of_covers (hG : G.Documented) (h : Covers G managed g)
    (hmatch : G.isMatch g host = true) : ∃ m ∈ managed, G.isMatch m host = true := by
  obtain hany | hmem | ⟨x, d, rfl, hmem, hx, hd, hxr, hdr, hnil⟩ := h
  · exact ⟨_, hany, hG.star host⟩
  · exact ⟨g, hmem, hmatch⟩
  · obtain ⟨u, v, rfl, hu, hv⟩ := (hG.dot x d hx hd hxr hdr host).1 hmatch
    have hne : u ≠ [] := by
      rintro rfl
      rw [hu] at hnil
      cases hnil
    have hmark : Glob.NoRecursion "?*" := .inl (by decide)
    refine ⟨_, hmem, (hG.dot "?*" d hG.valid_some hd hmark hdr _).2 ?_⟩
    exact ⟨u, v, rfl, (hG.some u).2 hne, hv⟩

theorem covers_literal (hG : G.Documented) (hg : Glob.Literal (u ++ '.' :: e)) (hu : u ≠ [])
    (hmem : ("?*." : Str) ++ e ∈ managed) : Covers G managed (u ++ '.' :: e) := by
  obtain ⟨hx, he⟩ := hg.of_cut
  have hnil : G.isMatch u [] = false := by
    by_contra h
    have hlower := (hG.literal u hx []).1 (eq_true_of_ne_false h)
    exact hu (List.map_eq_nil_iff.1 hlower.symm)
  exact .inr (.inr ⟨u, e, rfl, hmem, hG.valid_literal u hx, hG.valid_literal e he,
    hx.noRecursion, he.noRecursion, hnil⟩)

/-- The hosts under a domain that lies under a managed one. -/
theorem covers_some (hG : G.Documented) (hd : Glob.Literal (u ++ '.' :: e))
    (hmem : ("?*." : Str) ++ e ∈ managed) : Covers G managed ("?*." ++ (u ++ '.' :: e)) := by
  obtain ⟨hx, he⟩ := hd.of_cut
  refine .inr (.inr ⟨"?*." ++ u, e, by simp, hmem, hG.valid_some_dot hx,
    hG.valid_literal e he, .inl ?_, he.noRecursion, hG.some_dot_nil hx⟩)
  intro hslash
  rcases List.mem_append.1 hslash with hslash | hslash
  · exact absurd hslash (by decide)
  · exact hx '/' hslash (by decide)

/-- Two ways to cut a text at a dot. -/
theorem cut_cases {a b c d : Str} (h : a ++ '.' :: b = c ++ '.' :: d) :
    (a = c ∧ b = d) ∨ (∃ r, c = a ++ '.' :: r ∧ b = r ++ '.' :: d) ∨
      ∃ r, a = c ++ '.' :: r ∧ d = r ++ '.' :: b := by
  obtain ⟨t, hc, hb⟩ | ⟨t, ha, hd⟩ := List.append_eq_append_iff.1 h
  · cases t with
    | nil =>
      left
      simp only [List.append_nil, List.nil_append, List.cons.injEq, true_and] at hc hb
      exact ⟨hc.symm, hb⟩
    | cons x r =>
      simp only [List.cons_append, List.cons.injEq] at hb
      obtain ⟨rfl, hb⟩ := hb
      exact .inr (.inl ⟨r, hc, hb⟩)
  · cases t with
    | nil =>
      left
      simp only [List.append_nil, List.nil_append, List.cons.injEq, true_and] at ha hd
      exact ⟨ha, hd.symm⟩
    | cons x r =>
      simp only [List.cons_append, List.cons.injEq] at hd
      obtain ⟨rfl, hd⟩ := hd
      exact .inr (.inr ⟨r, ha, hd⟩)

theorem covers_of_end (hG : G.Documented) (hg : PlainGlob (u ++ '.' :: e))
    (hu : u ≠ []) (hmem : ("?*." : Str) ++ e ∈ managed) : Covers G managed (u ++ '.' :: e) := by
  obtain hstar | hlit | ⟨d, hd, hsome⟩ := hg
  · have hdot : '.' ∈ ("*" : Str) := by
      rw [← hstar]
      simp
    exact absurd hdot (by decide)
  · exact covers_literal hG hlit hu hmem
  · obtain ⟨rfl, rfl⟩ | ⟨r, hcut, -⟩ | ⟨r, rfl, rfl⟩ :=
      cut_cases (c := "?*") (d := d) hsome
    · exact .inr (.inl hmem)
    · have hdot : '.' ∈ ("?*" : Str) := by
        rw [hcut]
        simp
      exact absurd hdot (by decide)
    · have hcov := covers_some hG hd hmem
      simpa using hcov

end Cover

/-! ## The pattern algebra -/

section Algebra

variable {G : Glob.Engine} {p q : DomainPattern} {child parent : Str}

theorem ends_of_isStrictSubdomain (h : isStrictSubdomain child parent = true) :
    ∃ r, normalizeDomain child = r ++ '.' :: normalizeDomain parent := by
  unfold isStrictSubdomain at h
  rw [Bool.and_eq_true] at h
  exact Str.endsWith_iff.1 h.2

theorem ends_of_isSubdomainOrEqual (h : isSubdomainOrEqual child parent = true) :
    normalizeDomain child = normalizeDomain parent ∨
      ∃ r, normalizeDomain child = r ++ '.' :: normalizeDomain parent := by
  unfold isSubdomainOrEqual at h
  rw [Bool.or_eq_true, decide_eq_true_eq] at h
  exact h.imp_right Str.endsWith_iff.1

/-- A domain with a first label, under a managed one. -/
theorem covers_exact {managed : List Str} {d e : Str} (hG : G.Documented) (hplain : PlainGlob d)
    (hfirst : Str.startsWith d "." = false) (hend : ∃ r, d = r ++ '.' :: e)
    (hmem : ("?*." : Str) ++ e ∈ managed) : Covers G managed d := by
  obtain ⟨u, rfl⟩ := hend
  refine covers_of_end hG hplain ?_ hmem
  rintro rfl
  have hstart : Str.startsWith ([] ++ '.' :: e) "." = true := Str.startsWith_iff.2 ⟨e, rfl⟩
  rw [hstart] at hfirst
  cases hfirst

theorem covers_under {managed : List Str} {d e : Str} (hG : G.Documented)
    (hplain : PlainGlob ("?*." ++ d)) (hend : d = e ∨ ∃ r, d = r ++ '.' :: e)
    (hmem : ("?*." : Str) ++ e ∈ managed) : Covers G managed ("?*." ++ d) := by
  obtain rfl | ⟨u, rfl⟩ := hend
  · exact .inr (.inl hmem)
  · have hcov := covers_of_end (u := "?*." ++ u) hG (by simpa using hplain) (by simp) hmem
    simpa using hcov

/-- `allows` is sound for what plain patterns stand for. -/
theorem covers_of_allows (hG : G.Documented) (hallows : p.allows q = true)
    (hplain : ∀ g ∈ q.globs, PlainGlob g ∧ Str.startsWith g "." = false) :
    ∀ g ∈ q.globs, Covers G p.globs g := by
  intro g hg
  obtain ⟨hgplain, hfirst⟩ := hplain g hg
  cases p with
  | any => exact .inl List.mem_cons_self
  | exact d =>
    cases q with
    | exact c =>
      have heq : normalizeDomain c = normalizeDomain d := of_decide_eq_true hallows
      rw [DomainPattern.globs, heq] at hg
      exact .inr (.inl hg)
    | any => cases hallows
    | subdomainsOnly c => cases hallows
    | apexAndSubdomains c => cases hallows
  | subdomainsOnly d =>
    have hmem : ("?*." : Str) ++ normalizeDomain d ∈ (DomainPattern.subdomainsOnly d).globs :=
      List.mem_cons_self
    cases q with
    | any => cases hallows
    | exact c =>
      obtain rfl := List.mem_singleton.1 hg
      exact covers_exact hG hgplain hfirst (ends_of_isStrictSubdomain hallows) hmem
    | subdomainsOnly c =>
      obtain rfl := List.mem_singleton.1 hg
      exact covers_under hG hgplain (ends_of_isSubdomainOrEqual hallows) hmem
    | apexAndSubdomains c =>
      have hend := ends_of_isStrictSubdomain hallows
      rcases List.mem_cons.1 hg with rfl | hg
      · exact covers_exact hG hgplain hfirst hend hmem
      · obtain rfl := List.mem_singleton.1 hg
        exact covers_under hG hgplain (.inr hend) hmem
  | apexAndSubdomains d =>
    have hmem : ("?*." : Str) ++ normalizeDomain d ∈ (DomainPattern.apexAndSubdomains d).globs :=
      List.mem_cons_of_mem _ List.mem_cons_self
    have hcovers : ∀ c, PlainGlob (normalizeDomain c) →
        Str.startsWith (normalizeDomain c) "." = false → isSubdomainOrEqual c d = true →
        Covers G (DomainPattern.apexAndSubdomains d).globs (normalizeDomain c) := by
      intro c hc hfirst hsub
      rcases ends_of_isSubdomainOrEqual hsub with heq | hend
      · rw [heq]
        exact .inr (.inl List.mem_cons_self)
      · exact covers_exact hG hc hfirst hend hmem
    cases q with
    | any => cases hallows
    | exact c =>
      obtain rfl := List.mem_singleton.1 hg
      exact hcovers c hgplain hfirst hallows
    | subdomainsOnly c =>
      obtain rfl := List.mem_singleton.1 hg
      exact covers_under hG hgplain (ends_of_isSubdomainOrEqual hallows) hmem
    | apexAndSubdomains c =>
      rcases List.mem_cons.1 hg with rfl | hg
      · exact hcovers c hgplain hfirst hallows
      · obtain rfl := List.mem_singleton.1 hg
        exact covers_under hG hgplain (ends_of_isSubdomainOrEqual hallows) hmem

end Algebra

/-! ## Plain globs -/

section Plain

variable {G : Glob.Engine} {managed : List Str} {d g m host : Str}

def longLabel (managed : List Str) : Str :=
  List.replicate ((managed.map List.length).sum + 1) 'a'

theorem longLabel_ne_nil : longLabel managed ≠ [] := by
  simp [longLabel]

theorem longLabel_ne_cut {u v : Str} : longLabel managed ≠ u ++ '.' :: v := by
  intro h
  have hdot : '.' ∈ longLabel managed := by
    rw [h]
    simp
  exact absurd (List.eq_of_mem_replicate hdot) (by decide)

theorem length_lt_longLabel (hm : m ∈ managed) : m.length < (longLabel managed).length := by
  have hle : m.length ≤ (managed.map List.length).sum :=
    List.le_sum_of_mem (List.mem_map_of_mem hm)
  rw [longLabel, List.length_replicate]
  exact Nat.lt_succ_of_le hle

theorem not_isMatch_of_length (hG : G.Documented) (hm : Glob.Literal m)
    (hlen : m.length < host.length) : G.isMatch m host = false := by
  by_contra h
  have hlower := congrArg List.length ((hG.literal m hm host).1 (eq_true_of_ne_false h))
  simp only [Str.toAsciiLowercase, List.length_map] at hlower
  omega

theorem covers_star (hG : G.Documented) (hplain : ∀ m ∈ managed, PlainGlob m)
    (h : ∃ m ∈ managed, G.isMatch m (longLabel managed) = true) : Covers G managed "*" := by
  obtain ⟨m, hm, hmatch⟩ := h
  obtain rfl | hlit | ⟨d, hd, rfl⟩ := hplain m hm
  · exact .inl hm
  · rw [not_isMatch_of_length hG hlit (length_lt_longLabel hm)] at hmatch
    cases hmatch
  · obtain ⟨u, v, hcut, -⟩ := (hG.some_dot hd).1 hmatch
    exact absurd hcut longLabel_ne_cut

theorem covers_of_self (hG : G.Documented) (hplain : ∀ m ∈ managed, PlainGlob m)
    (hlower : ∀ m ∈ managed, Str.IsLower m) (hg : Glob.Literal g) (hglower : Str.IsLower g)
    (h : ∃ m ∈ managed, G.isMatch m g = true) : Covers G managed g := by
  obtain ⟨m, hm, hmatch⟩ := h
  obtain rfl | hlit | ⟨d, hd, rfl⟩ := hplain m hm
  · exact .inl hm
  · have heq := (hG.literal m hlit g).1 hmatch
    rw [hglower.toAsciiLowercase_eq, (hlower m hm).toAsciiLowercase_eq] at heq
    exact .inr (.inl (heq ▸ hm))
  · obtain ⟨u, v, rfl, hu, hv⟩ := (hG.some_dot hd).1 hmatch
    have hvlower : Str.IsLower v :=
      hglower.mono fun c hc => List.mem_append_right _ (List.mem_cons_of_mem _ hc)
    have hdlower : Str.IsLower d :=
      (hlower _ hm).mono fun c hc => List.mem_append_right _ hc
    rw [hvlower.toAsciiLowercase_eq, hdlower.toAsciiLowercase_eq] at hv
    subst hv
    exact covers_literal hG hg hu hm

/-- If a long label under a domain is matched, the hosts under the domain are covered. -/
theorem covers_of_longLabel (hG : G.Documented) (hplain : ∀ m ∈ managed, PlainGlob m)
    (hlower : ∀ m ∈ managed, Str.IsLower m) (hd : Glob.Literal d) (hdlower : Str.IsLower d)
    (h : ∃ m ∈ managed, G.isMatch m (longLabel managed ++ '.' :: d) = true) :
    Covers G managed ("?*." ++ d) := by
  obtain ⟨m, hm, hmatch⟩ := h
  obtain rfl | hlit | ⟨e, he, rfl⟩ := hplain m hm
  · exact .inl hm
  · have hlen : m.length < (longLabel managed ++ '.' :: d).length := by
      have hlong := length_lt_longLabel hm
      rw [List.length_append]
      omega
    rw [not_isMatch_of_length hG hlit hlen] at hmatch
    cases hmatch
  · obtain ⟨u, v, hcut, -, hv⟩ := (hG.some_dot he).1 hmatch
    have helower : Str.IsLower e := (hlower _ hm).mono fun c hc => List.mem_append_right _ hc
    rw [helower.toAsciiLowercase_eq] at hv
    obtain ⟨-, rfl⟩ | ⟨r, -, rfl⟩ | ⟨r, hlong, -⟩ := cut_cases hcut
    · rw [hdlower.toAsciiLowercase_eq] at hv
      subst hv
      exact .inr (.inl hm)
    · have hvlower : Str.IsLower v :=
        hdlower.mono fun c hc => List.mem_append_right _ (List.mem_cons_of_mem _ hc)
      rw [hvlower.toAsciiLowercase_eq] at hv
      subst hv
      exact covers_some hG hd hm
    · exact absurd hlong longLabel_ne_cut

theorem covers_of_included (hG : G.Documented) (hplain : ∀ m ∈ managed, PlainGlob m)
    (hlower : ∀ m ∈ managed, Str.IsLower m) (hg : PlainGlob g) (hglower : Str.IsLower g)
    (h : ∀ host, G.isMatch g host = true → ∃ m ∈ managed, G.isMatch m host = true) :
    Covers G managed g := by
  obtain rfl | hlit | ⟨d, hd, rfl⟩ := hg
  · exact covers_star hG hplain (h _ (hG.star _))
  · exact covers_of_self hG hplain hlower hlit hglower (h g ((hG.literal g hlit g).2 rfl))
  · have hdlower : Str.IsLower d := hglower.mono fun c hc => List.mem_append_right _ hc
    refine covers_of_longLabel hG hplain hlower hd hdlower (h _ ((hG.some_dot hd).2 ?_))
    exact ⟨longLabel managed, d, rfl, longLabel_ne_nil, rfl⟩

end Plain

/-! ## Validated lists -/

/-- The list matches only what the managed one does if the managed globs cover its globs; of
plain globs, only if. They cover where validation and compilation read every entry alike. -/
theorem allowed_domains_included {G : Glob.Engine} {urlHost : UrlHost} {debug : List Str → Str}
    {config : NetworkProxyConfig} {constraints : NetworkProxyConstraints} {managed : List Str}
    {allow cap : Glob.GlobSet} (hG : G.Documented)
    (hvalid : validatePolicyAgainstConstraints urlHost debug config constraints = .ok ())
    (hmanaged : constraints.allowedDomains = some managed)
    (hallow : compileGlobset G config.network.allowedDomains = .ok allow)
    (hcap : compileGlobset G managed = .ok cap) :
    ((∀ g ∈ globsOf config.network.allowedDomains, Covers G (globsOf managed) g) →
      Included G allow cap) ∧
    ((∀ g ∈ globsOf config.network.allowedDomains ++ globsOf managed, PlainGlob g) →
      Included G allow cap →
      ∀ g ∈ globsOf config.network.allowedDomains, Covers G (globsOf managed) g) ∧
    ((∀ entry ∈ config.network.allowedDomains ++ managed, ReadAlike urlHost entry) →
      (∀ g ∈ globsOf config.network.allowedDomains,
        PlainGlob g ∧ Str.startsWith g "." = false) →
      Included G allow cap) := by
  have hsuff : (∀ g ∈ globsOf config.network.allowedDomains, Covers G (globsOf managed) g) →
      Included G allow cap := by
    intro hcovers host hmatch
    obtain ⟨g, hg, hmatch⟩ := (isMatch_compiled hallow).1 hmatch
    exact (isMatch_compiled hcap).2 (exists_isMatch_of_covers hG (hcovers g hg) hmatch)
  refine ⟨hsuff, ?_, ?_⟩
  · intro hplain hincl g hg
    refine covers_of_included hG (fun m hm => hplain m (List.mem_append_right _ hm))
      (fun m => isLower_of_mem_globsOf) (hplain g (List.mem_append_left _ hg))
      (isLower_of_mem_globsOf hg) ?_
    intro host hmatch
    exact (isMatch_compiled hcap).1 (hincl host ((isMatch_compiled hallow).2 ⟨g, hg, hmatch⟩))
  · intro halike hplain
    apply hsuff
    intro g hg
    obtain ⟨entry, hentry, hgentry⟩ := List.mem_flatMap.1 hg
    obtain ⟨m, hm, hallows⟩ := exists_allows_of_validate hvalid hmanaged hentry
    have hentryAlike := halike entry (List.mem_append_left _ hentry)
    have hmAlike := halike m (List.mem_append_right _ hm)
    have hglobs : ∀ g' ∈ (DomainPattern.parseForConstraints urlHost entry).globs,
        g' ∈ globsOf config.network.allowedDomains := by
      intro g' hg'
      rw [← hentryAlike] at hg'
      exact List.mem_flatMap.2 ⟨entry, hentry, hg'⟩
    have hcov := covers_of_allows hG hallows (fun g' hg' => hplain g' (hglobs g' hg')) g
      (hentryAlike ▸ hgentry)
    refine hcov.mono fun m' hm' => ?_
    rw [← hmAlike] at hm'
    exact List.mem_flatMap.2 ⟨m, hm, hm'⟩

def asciiUrlHost : UrlHost := fun s =>
  if s ≠ [] ∧ s.all fun c => c ∈ Str.lowerLetters || Str.isAsciiDigit c || c ∈ ("-." : Str) then
    some s
  else none

def configAllowing (allowedDomains : List Str) : NetworkProxyConfig :=
  ⟨⟨true, .full, false, false, false, allowedDomains, [], [], false⟩⟩

def constraintsAllowing (allowedDomains : List Str) : NetworkProxyConstraints :=
  ⟨none, none, none, none, none, some allowedDomains, none, none, none⟩

theorem allowed_domains_included_subdomain :
    validatePolicyAgainstConstraints asciiUrlHost (fun _ => [])
      (configAllowing ["api.example.com"]) (constraintsAllowing ["*.example.com"]) = .ok () ∧
    Included Glob.wildcards ⟨["api.example.com"]⟩ ⟨["?*.example.com"]⟩ := by
  have hvalid : validatePolicyAgainstConstraints asciiUrlHost (fun _ => [])
      (configAllowing ["api.example.com"]) (constraintsAllowing ["*.example.com"]) = .ok () := by
    decide
  have hallow :
      compileGlobset Glob.wildcards ["api.example.com"] = .ok ⟨["api.example.com"]⟩ := by decide
  have hcap : compileGlobset Glob.wildcards ["*.example.com"] = .ok ⟨["?*.example.com"]⟩ := by
    decide
  have hincl := allowed_domains_included Glob.wildcards_documented hvalid rfl hallow hcap
  refine ⟨hvalid, hincl.1 ?_⟩
  intro g hg
  obtain rfl : g = "api.example.com" := List.mem_singleton.1 hg
  exact .inr (.inr ⟨"api", "example.com", by decide, by decide, by decide, by decide,
    .inl (by decide), .inl (by decide), by decide⟩)

/-- Entries with ports are read as the empty host, so that one passes for any other. -/
theorem not_included_ports :
    asciiUrlHost.RejectsColon ∧
    validatePolicyAgainstConstraints asciiUrlHost (fun _ => [])
      (configAllowing ["evil.com:443"]) (constraintsAllowing ["good.com:443"]) = .ok () ∧
    compileGlobset Glob.wildcards ["evil.com:443"] = .ok ⟨["evil.com"]⟩ ∧
    compileGlobset Glob.wildcards ["good.com:443"] = .ok ⟨["good.com"]⟩ ∧
    ¬ Included Glob.wildcards ⟨["evil.com"]⟩ ⟨["good.com"]⟩ := by
  refine ⟨?_, by decide, by decide, by decide, ?_⟩
  · intro s _ hcolon
    refine if_neg ?_
    rintro ⟨-, hall⟩
    exact absurd (List.all_eq_true.1 hall ':' hcolon) (by decide)
  · intro hincl
    exact absurd (hincl "evil.com" (by decide)) (by decide)

end SheriMl.NetworkProxy
