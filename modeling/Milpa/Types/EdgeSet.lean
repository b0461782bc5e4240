import Milpa.Types.Lockfile

/-!
# The data of an edge set

`EdgeSet` of `milpa_types`: the requirements of one package, wherever they were read.
-/

namespace Milpa

/-- `EdgeSource`. -/
inductive EdgeSource where
  | depDecl
  | milpaKdl
  | nimbleFallback
  deriving DecidableEq, Repr

/-- `NamedRequire`. -/
structure NamedRequire where
  name : Str
  /-- The constraint as declared; empty for any version. -/
  constraintStr : Str
  predicates : List Predicate
  «namespace» : Option Str
  deriving DecidableEq, Repr

/-- `FlagRequest`. -/
structure FlagRequest where
  name : Str
  enabled : Bool
  deriving DecidableEq, Repr

/-- `UrlRequire`. -/
structure UrlRequire where
  url : Str
  ref : Str
  predicates : List Predicate
  flagRequests : List FlagRequest
  /-- The declared name, where the source of the requirement has one. -/
  name : Option Str
  deriving DecidableEq, Repr

/-- `RequireEntry`. -/
inductive RequireEntry where
  | named (require : NamedRequire)
  | url (require : UrlRequire)
  deriving DecidableEq, Repr

/-- `EdgeSet`. -/
structure EdgeSet where
  /-- In the order of the source. -/
  requires : List RequireEntry
  srcDir : Str
  source : EdgeSource
  deriving DecidableEq, Repr

/-- `ActivationSource`: why a flag is active. -/
inductive ActivationSource where
  | default
  | edgeRequest
  | enablesRule
  | cli
  deriving DecidableEq, Repr

end Milpa
