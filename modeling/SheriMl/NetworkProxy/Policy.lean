import SheriMl.Lib.Glob
import SheriMl.Lib.IpAddr
import SheriMl.Lib.Result

/-!
# Host policy

`network-proxy/src/policy.rs`: how hosts and domain patterns are normalised, which
addresses are not public, the globs that a list of patterns compiles to, and the
pattern algebra of the managed constraints. The glob engine and the host parser of
the `url` crate are parameters.
-/

namespace SheriMl.NetworkProxy

open Ip (IpAddr Ipv4Addr Ipv6Addr)

/-! ## Hosts -/

def normalizeDnsHost (host : Str) : Str := Str.trimEndMatches '.' (Str.toAsciiLowercase host)

/-- Without blanks around it, brackets, a port after the only colon, final dots and upper case. -/
def normalizeHost (host : Str) : Str :=
  let host := Str.trim host
  if Str.startsWith host "[" ∧ ']' ∈ host then
    normalizeDnsHost ((host.drop 1).takeWhile (· != ']'))
  else if host.count ':' = 1 then normalizeDnsHost (host.takeWhile (· != ':'))
  else normalizeDnsHost host

structure Host where
  str : Str
  nonempty : str ≠ []

def Host.parse (input : Str) : Option Host :=
  if h : normalizeHost input ≠ [] then some ⟨normalizeHost input, h⟩ else none

def noScope (host : Str) : Str := ((Str.splitOnce '%' host).map (·.1)).getD host

def isLoopbackHost (host : Host) : Bool :=
  let host := noScope host.str
  if host = "localhost" then true
  else match Ip.parse host with
    | some ip => ip.isLoopback
    | none => false

/-! ## Addresses -/

def ipv4InCidr (ip base : Ipv4Addr) (prefixLen : Nat) : Bool :=
  let mask := if prefixLen = 0 then 0 else BitVec.allOnes 32 <<< (32 - prefixLen)
  ip.bits &&& mask = base.bits &&& mask

def isNonPublicIpv4 (ip : Ipv4Addr) : Bool :=
  ip.isLoopback || ip.isPrivate || ip.isLinkLocal || ip.isUnspecified || ip.isMulticast ||
    ip.isBroadcast ||
    ipv4InCidr ip (.ofOctets 0 0 0 0) 8 ||
    ipv4InCidr ip (.ofOctets 100 64 0 0) 10 ||
    ipv4InCidr ip (.ofOctets 192 0 0 0) 24 ||
    ipv4InCidr ip (.ofOctets 192 0 2 0) 24 ||
    ipv4InCidr ip (.ofOctets 198 18 0 0) 15 ||
    ipv4InCidr ip (.ofOctets 198 51 100 0) 24 ||
    ipv4InCidr ip (.ofOctets 203 0 113 0) 24 ||
    ipv4InCidr ip (.ofOctets 240 0 0 0) 4

def isNonPublicIpv6 (ip : Ipv6Addr) : Bool :=
  match ip.toIpv4 with
  | some v4 => isNonPublicIpv4 v4 || ip.isLoopback
  | none =>
    ip.isLoopback || ip.isUnspecified || ip.isMulticast || ip.isUniqueLocal ||
      ip.isUnicastLinkLocal

def isNonPublicIp : IpAddr → Bool
  | .v4 ip => isNonPublicIpv4 ip
  | .v6 ip => isNonPublicIpv6 ip

/-! ## Patterns -/

/-- The host part normalised, a wildcard in front kept. -/
def normalizePattern (pattern : Str) : Str :=
  let pattern := Str.trim pattern
  if pattern = "*" then pattern
  else match Str.stripPrefix pattern "**." with
    | some domain => ("**." : Str) ++ normalizeHost domain
    | none =>
      match Str.stripPrefix pattern "*." with
      | some domain => ("*." : Str) ++ normalizeHost domain
      | none => normalizeHost pattern

inductive DomainPattern where
  | any
  | apexAndSubdomains (domain : Str)
  | subdomainsOnly (domain : Str)
  | exact (domain : Str)

namespace DomainPattern

def domain : DomainPattern → Str
  | any => []
  | apexAndSubdomains domain | subdomainsOnly domain | exact domain => domain

def parseDomain (domain : Str) (build : Str → DomainPattern) : DomainPattern :=
  if (Str.trim domain).isEmpty then .exact [] else build (Str.trim domain)

def parse (input : Str) : DomainPattern :=
  let input := Str.trim input
  if input.isEmpty then .exact []
  else if input = "*" then .any
  else match Str.stripPrefix input "**." with
    | some domain => parseDomain domain apexAndSubdomains
    | none =>
      match Str.stripPrefix input "*." with
      | some domain => parseDomain domain subdomainsOnly
      | none => .exact input

end DomainPattern

/-- `url::Host::parse` and the text of the host it gives. -/
abbrev UrlHost := Str → Option Str

def UrlHost.RejectsColon (urlHost : UrlHost) : Prop :=
  ∀ s, Str.startsWith s "[" = false → ':' ∈ s → urlHost s = none

/-- The domain of a constraint; what the host parser rejects becomes empty. -/
def parseDomainForConstraints (urlHost : UrlHost) (domain : Str) : Str :=
  let domain := Str.trimEndMatches '.' (Str.trim domain)
  if domain.isEmpty then []
  else
    let host :=
      if Str.startsWith domain "[" ∧ Str.endsWith domain "]" then (domain.drop 1).dropLast
      else domain
    if '*' ∈ host ∨ '?' ∈ host ∨ '%' ∈ host then domain else (urlHost host).getD []

def normalizeDomain (domain : Str) : Str := Str.toAsciiLowercase (Str.trimEndMatches '.' domain)

def domainEq (left right : Str) : Bool := normalizeDomain left = normalizeDomain right

def isSubdomainOrEqual (child parent : Str) : Bool :=
  let child := normalizeDomain child
  let parent := normalizeDomain parent
  child = parent || Str.endsWith child ('.' :: parent)

def isStrictSubdomain (child parent : Str) : Bool :=
  let child := normalizeDomain child
  let parent := normalizeDomain parent
  child ≠ parent && Str.endsWith child ('.' :: parent)

namespace DomainPattern

def parseForConstraints (urlHost : UrlHost) (input : Str) : DomainPattern :=
  let input := Str.trim input
  if input.isEmpty then .exact []
  else if input = "*" then .any
  else match Str.stripPrefix input "**." with
    | some domain => .apexAndSubdomains (parseDomainForConstraints urlHost domain)
    | none =>
      match Str.stripPrefix input "*." with
      | some domain => .subdomainsOnly (parseDomainForConstraints urlHost domain)
      | none => .exact (parseDomainForConstraints urlHost input)

def allows : DomainPattern → DomainPattern → Bool
  | any, _ => true
  | exact domain, exact candidate => domainEq candidate domain
  | exact _, _ => false
  | subdomainsOnly _, any => false
  | subdomainsOnly domain, exact candidate => isStrictSubdomain candidate domain
  | subdomainsOnly domain, subdomainsOnly candidate => isSubdomainOrEqual candidate domain
  | subdomainsOnly domain, apexAndSubdomains candidate => isStrictSubdomain candidate domain
  | apexAndSubdomains _, any => false
  | apexAndSubdomains domain, exact candidate => isSubdomainOrEqual candidate domain
  | apexAndSubdomains domain, subdomainsOnly candidate => isSubdomainOrEqual candidate domain
  | apexAndSubdomains domain, apexAndSubdomains candidate => isSubdomainOrEqual candidate domain

end DomainPattern

/-! ## Globs -/

def expandDomainPattern (pattern : Str) : List Str :=
  match DomainPattern.parse pattern with
  | .any => [pattern]
  | .exact domain => [domain]
  | .subdomainsOnly domain => [("?*." : Str) ++ domain]
  | .apexAndSubdomains domain => [domain, ("?*." : Str) ++ domain]

def globsOf (patterns : List Str) : List Str :=
  patterns.flatMap fun pattern => expandDomainPattern (normalizePattern pattern)

inductive GlobsetError where
  | invalidGlobPattern (candidate : Str)
  | build
  deriving DecidableEq

/-- Each glob once, up to the first that is invalid. -/
def addGlobs (G : Glob.Engine) : List Str → List Str → Except GlobsetError (List Str)
  | _, [] => .ok []
  | seen, candidate :: candidates =>
    if candidate ∈ seen then addGlobs G seen candidates
    else if G.valid candidate then
      (addGlobs G (candidate :: seen) candidates).map (candidate :: ·)
    else .error (.invalidGlobPattern candidate)

def compileGlobset (G : Glob.Engine) (patterns : List Str) : Except GlobsetError Glob.GlobSet := do
  let globs ← addGlobs G [] (globsOf patterns)
  if G.builds globs then .ok ⟨globs⟩ else .error .build

example : compileGlobset Glob.wildcards ["**.Example.com.", "*.example.com", "[::1]:80"] =
    .ok ⟨["example.com", "?*.example.com", "::1"]⟩ := by decide

/-! ## What is compiled -/

section Compile

variable {G : Glob.Engine} {seen candidates globs patterns : List Str} {g host : Str}
  {set : Glob.GlobSet}

theorem mem_addGlobs (h : addGlobs G seen candidates = .ok globs) :
    ∀ g, g ∈ seen ∨ g ∈ globs ↔ g ∈ seen ∨ g ∈ candidates := by
  induction candidates generalizing seen globs with
  | nil =>
    cases h
    exact fun g => Iff.rfl
  | cons candidate candidates ih =>
    intro g
    rw [addGlobs] at h
    split at h
    next hseen =>
      rw [ih h g, List.mem_cons]
      constructor
      · rintro (hg | hg)
        · exact .inl hg
        · exact .inr (.inr hg)
      · rintro (hg | rfl | hg)
        · exact .inl hg
        · exact .inl hseen
        · exact .inr hg
    · split at h
      · obtain ⟨rest, hrest, rfl⟩ := Result.exists_of_map_eq_ok h
        have hg := ih hrest g
        simp only [List.mem_cons] at hg ⊢
        tauto
      · cases h

theorem mem_globs (h : compileGlobset G patterns = .ok set) :
    g ∈ set.globs ↔ g ∈ globsOf patterns := by
  unfold compileGlobset at h
  obtain ⟨globs, hadd, h⟩ := Result.exists_of_bind_eq_ok h
  split at h
  · cases h
    simpa using mem_addGlobs hadd g
  · cases h

theorem isMatch_compiled (h : compileGlobset G patterns = .ok set) :
    set.isMatch G host = true ↔ ∃ g ∈ globsOf patterns, G.isMatch g host = true := by
  simp only [Glob.GlobSet.isMatch, List.any_eq_true, mem_globs h]

theorem isLower_normalizeDnsHost (host : Str) : Str.IsLower (normalizeDnsHost host) :=
  (Str.isLower_toAsciiLowercase host).mono fun _ hc => (List.rdropWhile_prefix _ _).subset hc

theorem isLower_normalizeHost (host : Str) : Str.IsLower (normalizeHost host) := by
  unfold normalizeHost
  dsimp only
  split
  · exact isLower_normalizeDnsHost _
  · split
    · exact isLower_normalizeDnsHost _
    · exact isLower_normalizeDnsHost _

theorem isLower_normalizePattern (pattern : Str) : Str.IsLower (normalizePattern pattern) := by
  have hstars : Str.IsLower "**." := by decide
  have hstar : Str.IsLower "*." := by decide
  unfold normalizePattern
  dsimp only
  split
  next hany =>
    rw [hany]
    decide
  · split
    · exact hstars.append (isLower_normalizeHost _)
    · split
      · exact hstar.append (isLower_normalizeHost _)
      · exact isLower_normalizeHost _

theorem isLower_nil : Str.IsLower [] := by
  intro c hc
  cases hc

theorem isLower_parseDomain {domain : Str} {build : Str → DomainPattern}
    (h : Str.IsLower domain) (hbuild : ∀ d, (build d).domain = d) :
    Str.IsLower (DomainPattern.parseDomain domain build).domain := by
  unfold DomainPattern.parseDomain
  split
  · exact isLower_nil
  · rw [hbuild]
    exact h.mono fun _ => Str.mem_of_mem_trim

theorem isLower_parse {input : Str} (h : Str.IsLower input) :
    Str.IsLower (DomainPattern.parse input).domain := by
  have htrim : Str.IsLower (Str.trim input) := h.mono fun _ => Str.mem_of_mem_trim
  have hrest : ∀ lead rest, Str.stripPrefix (Str.trim input) lead = some rest →
      Str.IsLower rest := by
    intro lead rest hstrip
    refine htrim.mono fun c hc => ?_
    rw [Str.stripPrefix_eq_some.1 hstrip]
    exact List.mem_append_right _ hc
  unfold DomainPattern.parse
  dsimp only
  split
  · exact isLower_nil
  · split
    · exact isLower_nil
    · split
      next domain hstrip => exact isLower_parseDomain (hrest _ _ hstrip) fun _ => rfl
      · split
        next domain hstrip => exact isLower_parseDomain (hrest _ _ hstrip) fun _ => rfl
        · exact htrim

/-- Globs have no capital letters. -/
theorem isLower_of_mem_globsOf (h : g ∈ globsOf patterns) : Str.IsLower g := by
  obtain ⟨pattern, -, hg⟩ := List.mem_flatMap.1 h
  have hlower := isLower_normalizePattern pattern
  have hdomain := isLower_parse hlower
  have hmark : Str.IsLower "?*." := by decide
  unfold expandDomainPattern at hg
  split at hg
  next heq =>
    obtain rfl := List.mem_singleton.1 hg
    exact hlower
  next domain heq =>
    rw [heq] at hdomain
    obtain rfl := List.mem_singleton.1 hg
    exact hdomain
  next domain heq =>
    rw [heq] at hdomain
    obtain rfl := List.mem_singleton.1 hg
    exact hmark.append hdomain
  next domain heq =>
    rw [heq] at hdomain
    rcases List.mem_cons.1 hg with rfl | hg
    · exact hdomain
    · obtain rfl := List.mem_singleton.1 hg
      exact hmark.append hdomain

end Compile

end SheriMl.NetworkProxy
