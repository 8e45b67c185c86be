import SheriMl.Lib.Path

/-!
# Approval and sandbox policies

The policy types of `protocol/src/protocol.rs` and `protocol/src/models.rs`.
-/

namespace SheriMl.Protocol

/-- When the user is asked to approve a command. -/
inductive AskForApproval where
  | unlessTrusted
  | onFailure
  | onRequest
  | never
  deriving DecidableEq

inductive NetworkAccess where
  | restricted
  | enabled

inductive ReadOnlyAccess where
  | restricted (includePlatformDefaults : Bool) (readableRoots : List Str)
  | fullAccess
  deriving DecidableEq

/-- Execution restrictions for model shell commands. -/
inductive SandboxPolicy where
  | dangerFullAccess
  | readOnly (access : ReadOnlyAccess)
  | externalSandbox (networkAccess : NetworkAccess)
  | workspaceWrite (writableRoots : List Str) (readOnlyAccess : ReadOnlyAccess)
      (networkAccess excludeTmpdirEnvVar excludeSlashTmp : Bool)

/-- `new_read_only_policy`. -/
def SandboxPolicy.newReadOnlyPolicy : SandboxPolicy := .readOnly .fullAccess

/-- `new_workspace_write_policy`. -/
def SandboxPolicy.newWorkspaceWritePolicy : SandboxPolicy :=
  .workspaceWrite [] .fullAccess false false false

inductive SandboxPermissions where
  | useDefault
  | requireEscalated

def SandboxPermissions.requiresEscalatedPermissions : SandboxPermissions → Bool
  | .useDefault => false
  | .requireEscalated => true

/-- A writable root with the subpaths below it that stay read-only. -/
structure WritableRoot where
  root : Str
  readOnlySubpaths : List Str
  deriving DecidableEq

/-- `Path::starts_with`: a prefix of whole components. -/
def pathStartsWith (path base : Str) : Bool :=
  (Path.components base).isPrefixOf (Path.components path)

def WritableRoot.isPathWritable (w : WritableRoot) (path : Str) : Bool :=
  pathStartsWith path w.root && !w.readOnlySubpaths.any (pathStartsWith path)

end SheriMl.Protocol
