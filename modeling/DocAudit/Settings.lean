import DocAudit.Source.Attribute
import DocAudit.Source.ProcedureHeader

/-!
# Settings

What an analysis looks at and how it reports.

* `Settings.allows`: which procedures are taken into the model.
* `Settings.requires`: which declarations must be documented.
-/

namespace DocAudit

/-- The kinds of procedure a setting can name. A try function is one whatever its category. -/
inductive ProcedureType
  | ofCategory (c : Category)
  | tryFunction
deriving DecidableEq, Repr

/-- The settings of an analysis. -/
structure Settings where
  /-- Declarations with these levels must be documented. -/
  accessLevels : List Access := Access.all
  checkObjects : Bool := true
  /-- Check obsolete declarations too. -/
  checkObsolete : Bool := false
  checkProcedures : Bool := true
  /-- Check triggers as well as procedures. -/
  checkTriggers : Bool := false
  /-- The kinds of procedure that are modelled; empty for all of them. -/
  procedureTypes : List ProcedureType := []
  severity : Severity := .information
deriving DecidableEq, Repr

namespace Settings

/-- Whether procedures of this category are modelled; a try function passes by either name. -/
def allows (s : Settings) (category : Category) (isTry : Bool) : Bool :=
  s.procedureTypes.isEmpty || (isTry && s.procedureTypes.contains .tryFunction) ||
    s.procedureTypes.contains (.ofCategory category)

/-- Whether declarations with this access level must be documented. -/
def requires (s : Settings) (access : Access) : Bool := s.accessLevels.contains access

theorem allows_of_procedureTypes_eq_nil {s : Settings} (h : s.procedureTypes = [])
    (category : Category) (isTry : Bool) : s.allows category isTry = true := by
  simp [allows, h]

/-- Whether attributes let a procedure pass. -/
def allowsTraits (s : Settings) (t : Traits) : Bool := s.allows t.categoryOrNormal t.isTry

/-- Whether a line is the header of a procedure that is modelled, given the attributes above. -/
def isModelledHeader (s : Settings) (line : Text) (attributes : List Text) : Bool :=
  (ProcedureHeader.read? line).isSome && s.allowsTraits (Traits.of attributes)

end Settings

end DocAudit
