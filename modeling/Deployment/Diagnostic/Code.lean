/-!
# Codes of diagnostics

Every diagnostic has a code out of a closed list. A code carries a *family*, which shows as
the beginning of its name (`CO_` for the conversion of blocks into models), a *severity*,
and a number within its family: the first code of a family has the number 0, the next one
1, in the order of the list. Severe diagnostics stop the steps that would build on what
they report; warnings never stop anything.

* `Code.all`: the codes in their order, which is also the first key of the order of
  diagnostics.
* `Code.name` and `Code.key`: the two spellings of a code, in reports and in documents.
* `Code.sequence`: the number of a code within its family.
-/

namespace Deployment

/-- The families of codes. -/
inductive Family where
  /-- Reading of text, done before blocks exist. -/
  | parsing
  /-- Checks of single blocks. -/
  | parsingModel
  /-- Conversion of blocks into graphs and instances. -/
  | conversion
  /-- Checks of compiled models. -/
  | runtimeModel
  /-- Layout and descriptor of a project. -/
  | project
  /-- Reusable fragments. -/
  | recipes
  /-- Command scripts. -/
  | commands
  /-- Autonomic rules. -/
  | rules
  /-- The remote interface. -/
  | rest
deriving DecidableEq, Inhabited

namespace Family

/-- What the names of the codes of a family begin with. -/
def mark : Family → String
  | .parsing => "P_"
  | .parsingModel => "PM_"
  | .conversion => "CO_"
  | .runtimeModel => "RM_"
  | .project => "PROJ_"
  | .recipes => "REC_"
  | .commands => "CMD_"
  | .rules => "RULE_"
  | .rest => "REST_"

/-- The spelling of a family in documents. -/
def key : Family → String
  | .parsing => "Parsing"
  | .parsingModel => "ParsingModel"
  | .conversion => "Conversion"
  | .runtimeModel => "RuntimeModel"
  | .project => "Project"
  | .recipes => "Recipes"
  | .commands => "Commands"
  | .rules => "Rules"
  | .rest => "Rest"

end Family

/-- How much a diagnostic weighs. -/
inductive Severity where
  /-- Suspicious but valid. -/
  | warning
  /-- A structural problem. -/
  | severe
deriving DecidableEq, Inhabited

/-- The spelling of a severity in reports. -/
def Severity.name : Severity → String
  | .warning => "WARNING"
  | .severe => "SEVERE"

/-- The codes, in their order. -/
inductive Code where
  /-- A file could not be read. -/
  | ioError
  /-- A line mixes several blocks. -/
  | oneBlockPerLine
  /-- A property line does not end with a semicolon. -/
  | propertyEndsWithSemiColon
  /-- An import line does not end with a semicolon. -/
  | importEndsWithSemiColon
  /-- A curly bracket was opened but never closed. -/
  | unclosedBracket
  /-- A line could not be matched to any block kind. -/
  | unrecognizedBlock
  /-- A component or facet has an empty name. -/
  | emptyTypeName
  /-- A component or facet name contains forbidden characters. -/
  | invalidTypeName
  /-- A property is not recognized for this kind of block. -/
  | unknownPropertyName
  /-- A property has no value. -/
  | emptyPropertyValue
  /-- A property appears twice in the same block. -/
  | duplicateProperty
  /-- An `exports` entry cannot be understood. -/
  | invalidExportedVariable
  /-- An `imports` entry cannot be understood. -/
  | invalidImportedVariable
  /-- An instance has no `name` property. -/
  | missingInstanceName
  /-- An instance name contains forbidden characters. -/
  | invalidInstanceName
  /-- An instance `count` is not a positive integer. -/
  | invalidInstanceCount
  /-- An instance `state` is not a known status. -/
  | unknownInstanceState
  /-- A component `extends` lists more than one component. -/
  | extendsMultipleComponents
  /-- An imported file does not exist. -/
  | unreachableFile
  /-- A file reached through graph imports does not contain types. -/
  | notAGraph
  /-- A file reached through instance imports does not contain instances. -/
  | notInstances
  /-- A name is declared both as a component and as a facet. -/
  | conflictingName
  /-- A component is declared more than once. -/
  | alreadyDefinedComponent
  /-- A facet is declared more than once. -/
  | alreadyDefinedFacet
  /-- A referenced component does not exist. -/
  | inexistingComponent
  /-- A referenced facet does not exist. -/
  | inexistingFacet
  /-- A child is neither a component nor a facet. -/
  | inexistingChild
  /-- Components extend each other in a loop. -/
  | cycleInComponentsInheritance
  /-- Facets extend each other in a loop. -/
  | cycleInFacetsInheritance
  /-- Types contain each other in a loop. -/
  | cycleInChildren
  /-- Count replication produced an instance that collides with another one. -/
  | conflictingInferredInstance
  /-- Two instance declarations resolve to the same path. -/
  | alreadyDefinedInstance
  /-- A component has no installer, even through inheritance. -/
  | emptyComponentInstaller
  /-- A root component is not installed by the `target` installer. -/
  | rootInstallerMustBeTarget
  /-- A facet is never used. -/
  | orphanFacet
  /-- A facet with children is never used. -/
  | orphanFacetWithChildren
  /-- An imported variable is exported by nobody. -/
  | unresolvableVariable
  /-- An imported facet variable is exported by nobody. -/
  | unresolvableFacetVariable
  /-- A component cannot be reached from any root component. -/
  | unreachableComponent
  /-- An instance is placed under a parent whose type cannot contain it. -/
  | invalidInstanceParent
  /-- An instance overrides a variable its component does not export. -/
  | magicInstanceVariable
  /-- The application descriptor is missing. -/
  | noDescFile
  /-- The application descriptor cannot be decoded. -/
  | invalidDescFile
  /-- The graph entry point does not exist. -/
  | missingGraphEp
  /-- The instance entry point does not exist. -/
  | missingInstanceEp
  /-- A recipe declares instances. -/
  | unexpectedInstances
  /-- A recipe name does not follow the naming conventions. -/
  | invalidRecipeName
  /-- A command instruction is not recognized. -/
  | unrecognizedInstruction
  /-- A command references an instance that does not exist. -/
  | noMatchingInstance
  /-- A rule file cannot be read. -/
  | ruleIoError
  /-- A rule references a command that does not exist. -/
  | unknownCommand
  /-- A requested application does not exist. -/
  | inexistingApplication
  /-- A requested instance does not exist. -/
  | inexistingInstance
deriving DecidableEq, Inhabited

namespace Code

/-- Every code, in order. -/
def all : List Code :=
  [.ioError, .oneBlockPerLine, .propertyEndsWithSemiColon, .importEndsWithSemiColon,
   .unclosedBracket, .unrecognizedBlock, .emptyTypeName, .invalidTypeName,
   .unknownPropertyName, .emptyPropertyValue, .duplicateProperty, .invalidExportedVariable,
   .invalidImportedVariable, .missingInstanceName, .invalidInstanceName,
   .invalidInstanceCount, .unknownInstanceState, .extendsMultipleComponents, .unreachableFile,
   .notAGraph, .notInstances, .conflictingName, .alreadyDefinedComponent,
   .alreadyDefinedFacet, .inexistingComponent, .inexistingFacet, .inexistingChild,
   .cycleInComponentsInheritance, .cycleInFacetsInheritance, .cycleInChildren,
   .conflictingInferredInstance, .alreadyDefinedInstance, .emptyComponentInstaller,
   .rootInstallerMustBeTarget, .orphanFacet, .orphanFacetWithChildren, .unresolvableVariable,
   .unresolvableFacetVariable, .unreachableComponent, .invalidInstanceParent,
   .magicInstanceVariable, .noDescFile, .invalidDescFile, .missingGraphEp, .missingInstanceEp,
   .unexpectedInstances, .invalidRecipeName, .unrecognizedInstruction, .noMatchingInstance,
   .ruleIoError, .unknownCommand, .inexistingApplication, .inexistingInstance]

/-- The name of a code in reports. -/
def name : Code → String
  | .ioError => "P_IO_ERROR"
  | .oneBlockPerLine => "P_ONE_BLOCK_PER_LINE"
  | .propertyEndsWithSemiColon => "P_PROPERTY_ENDS_WITH_SEMI_COLON"
  | .importEndsWithSemiColon => "P_IMPORT_ENDS_WITH_SEMI_COLON"
  | .unclosedBracket => "P_UNCLOSED_BRACKET"
  | .unrecognizedBlock => "P_UNRECOGNIZED_BLOCK"
  | .emptyTypeName => "PM_EMPTY_TYPE_NAME"
  | .invalidTypeName => "PM_INVALID_TYPE_NAME"
  | .unknownPropertyName => "PM_UNKNOWN_PROPERTY_NAME"
  | .emptyPropertyValue => "PM_EMPTY_PROPERTY_VALUE"
  | .duplicateProperty => "PM_DUPLICATE_PROPERTY"
  | .invalidExportedVariable => "PM_INVALID_EXPORTED_VARIABLE"
  | .invalidImportedVariable => "PM_INVALID_IMPORTED_VARIABLE"
  | .missingInstanceName => "PM_MISSING_INSTANCE_NAME"
  | .invalidInstanceName => "PM_INVALID_INSTANCE_NAME"
  | .invalidInstanceCount => "PM_INVALID_INSTANCE_COUNT"
  | .unknownInstanceState => "PM_UNKNOWN_INSTANCE_STATE"
  | .extendsMultipleComponents => "PM_EXTENDS_MULTIPLE_COMPONENTS"
  | .unreachableFile => "CO_UNREACHABLE_FILE"
  | .notAGraph => "CO_NOT_A_GRAPH"
  | .notInstances => "CO_NOT_INSTANCES"
  | .conflictingName => "CO_CONFLICTING_NAME"
  | .alreadyDefinedComponent => "CO_ALREADY_DEFINED_COMPONENT"
  | .alreadyDefinedFacet => "CO_ALREADY_DEFINED_FACET"
  | .inexistingComponent => "CO_INEXISTING_COMPONENT"
  | .inexistingFacet => "CO_INEXISTING_FACET"
  | .inexistingChild => "CO_INEXISTING_CHILD"
  | .cycleInComponentsInheritance => "CO_CYCLE_IN_COMPONENTS_INHERITANCE"
  | .cycleInFacetsInheritance => "CO_CYCLE_IN_FACETS_INHERITANCE"
  | .cycleInChildren => "CO_CYCLE_IN_CHILDREN"
  | .conflictingInferredInstance => "CO_CONFLICTING_INFERRED_INSTANCE"
  | .alreadyDefinedInstance => "CO_ALREADY_DEFINED_INSTANCE"
  | .emptyComponentInstaller => "RM_EMPTY_COMPONENT_INSTALLER"
  | .rootInstallerMustBeTarget => "RM_ROOT_INSTALLER_MUST_BE_TARGET"
  | .orphanFacet => "RM_ORPHAN_FACET"
  | .orphanFacetWithChildren => "RM_ORPHAN_FACET_WITH_CHILDREN"
  | .unresolvableVariable => "RM_UNRESOLVABLE_VARIABLE"
  | .unresolvableFacetVariable => "RM_UNRESOLVABLE_FACET_VARIABLE"
  | .unreachableComponent => "RM_UNREACHABLE_COMPONENT"
  | .invalidInstanceParent => "RM_INVALID_INSTANCE_PARENT"
  | .magicInstanceVariable => "RM_MAGIC_INSTANCE_VARIABLE"
  | .noDescFile => "PROJ_NO_DESC_FILE"
  | .invalidDescFile => "PROJ_INVALID_DESC_FILE"
  | .missingGraphEp => "PROJ_MISSING_GRAPH_EP"
  | .missingInstanceEp => "PROJ_MISSING_INSTANCE_EP"
  | .unexpectedInstances => "REC_UNEXPECTED_INSTANCES"
  | .invalidRecipeName => "REC_INVALID_NAME"
  | .unrecognizedInstruction => "CMD_UNRECOGNIZED_INSTRUCTION"
  | .noMatchingInstance => "CMD_NO_MATCHING_INSTANCE"
  | .ruleIoError => "RULE_IO_ERROR"
  | .unknownCommand => "RULE_UNKNOWN_COMMAND"
  | .inexistingApplication => "REST_INEXISTING_APPLICATION"
  | .inexistingInstance => "REST_INEXISTING_INSTANCE"

/-- The spelling of a code in documents. -/
def key : Code → String
  | .ioError => "ParsingIoError"
  | .oneBlockPerLine => "ParsingOneBlockPerLine"
  | .propertyEndsWithSemiColon => "ParsingPropertyEndsWithSemiColon"
  | .importEndsWithSemiColon => "ParsingImportEndsWithSemiColon"
  | .unclosedBracket => "ParsingUnclosedBracket"
  | .unrecognizedBlock => "ParsingUnrecognizedBlock"
  | .emptyTypeName => "PmEmptyTypeName"
  | .invalidTypeName => "PmInvalidTypeName"
  | .unknownPropertyName => "PmUnknownPropertyName"
  | .emptyPropertyValue => "PmEmptyPropertyValue"
  | .duplicateProperty => "PmDuplicateProperty"
  | .invalidExportedVariable => "PmInvalidExportedVariable"
  | .invalidImportedVariable => "PmInvalidImportedVariable"
  | .missingInstanceName => "PmMissingInstanceName"
  | .invalidInstanceName => "PmInvalidInstanceName"
  | .invalidInstanceCount => "PmInvalidInstanceCount"
  | .unknownInstanceState => "PmUnknownInstanceState"
  | .extendsMultipleComponents => "PmExtendsMultipleComponents"
  | .unreachableFile => "CoUnreachableFile"
  | .notAGraph => "CoNotAGraph"
  | .notInstances => "CoNotInstances"
  | .conflictingName => "CoConflictingName"
  | .alreadyDefinedComponent => "CoAlreadyDefinedComponent"
  | .alreadyDefinedFacet => "CoAlreadyDefinedFacet"
  | .inexistingComponent => "CoInexistingComponent"
  | .inexistingFacet => "CoInexistingFacet"
  | .inexistingChild => "CoInexistingChild"
  | .cycleInComponentsInheritance => "CoCycleInComponentsInheritance"
  | .cycleInFacetsInheritance => "CoCycleInFacetsInheritance"
  | .cycleInChildren => "CoCycleInChildren"
  | .conflictingInferredInstance => "CoConflictingInferredInstance"
  | .alreadyDefinedInstance => "CoAlreadyDefinedInstance"
  | .emptyComponentInstaller => "RmEmptyComponentInstaller"
  | .rootInstallerMustBeTarget => "RmRootInstallerMustBeTarget"
  | .orphanFacet => "RmOrphanFacet"
  | .orphanFacetWithChildren => "RmOrphanFacetWithChildren"
  | .unresolvableVariable => "RmUnresolvableVariable"
  | .unresolvableFacetVariable => "RmUnresolvableFacetVariable"
  | .unreachableComponent => "RmUnreachableComponent"
  | .invalidInstanceParent => "RmInvalidInstanceParent"
  | .magicInstanceVariable => "RmMagicInstanceVariable"
  | .noDescFile => "ProjNoDescFile"
  | .invalidDescFile => "ProjInvalidDescFile"
  | .missingGraphEp => "ProjMissingGraphEp"
  | .missingInstanceEp => "ProjMissingInstanceEp"
  | .unexpectedInstances => "RecUnexpectedInstances"
  | .invalidRecipeName => "RecInvalidName"
  | .unrecognizedInstruction => "CmdUnrecognizedInstruction"
  | .noMatchingInstance => "CmdNoMatchingInstance"
  | .ruleIoError => "RuleIoError"
  | .unknownCommand => "RuleUnknownCommand"
  | .inexistingApplication => "RestInexistingApplication"
  | .inexistingInstance => "RestInexistingInstance"

/-- The family of a code. -/
def family : Code → Family
  | .ioError | .oneBlockPerLine | .propertyEndsWithSemiColon | .importEndsWithSemiColon
  | .unclosedBracket | .unrecognizedBlock => .parsing
  | .emptyTypeName | .invalidTypeName | .unknownPropertyName | .emptyPropertyValue
  | .duplicateProperty | .invalidExportedVariable | .invalidImportedVariable
  | .missingInstanceName | .invalidInstanceName | .invalidInstanceCount
  | .unknownInstanceState | .extendsMultipleComponents => .parsingModel
  | .unreachableFile | .notAGraph | .notInstances | .conflictingName
  | .alreadyDefinedComponent | .alreadyDefinedFacet | .inexistingComponent
  | .inexistingFacet | .inexistingChild | .cycleInComponentsInheritance
  | .cycleInFacetsInheritance | .cycleInChildren | .conflictingInferredInstance
  | .alreadyDefinedInstance => .conversion
  | .emptyComponentInstaller | .rootInstallerMustBeTarget | .orphanFacet
  | .orphanFacetWithChildren | .unresolvableVariable | .unresolvableFacetVariable
  | .unreachableComponent | .invalidInstanceParent | .magicInstanceVariable => .runtimeModel
  | .noDescFile | .invalidDescFile | .missingGraphEp | .missingInstanceEp => .project
  | .unexpectedInstances | .invalidRecipeName => .recipes
  | .unrecognizedInstruction | .noMatchingInstance => .commands
  | .ruleIoError | .unknownCommand => .rules
  | .inexistingApplication | .inexistingInstance => .rest

/-- The severity of a code. -/
def severity : Code → Severity
  | .unknownInstanceState | .orphanFacet | .orphanFacetWithChildren
  | .unreachableComponent | .magicInstanceVariable | .unexpectedInstances
  | .invalidRecipeName => .warning
  | _ => .severe

/-- Whether a code is severe. -/
def isSevere (c : Code) : Bool := c.severity == .severe

/-- Whatever goes wrong in conversion is severe. -/
theorem isSevere_of_conversion {c : Code} (h : c.family = .conversion) : c.isSevere = true := by
  revert h
  cases c <;> decide

/-- The place of a code in the list of all codes. -/
def index (c : Code) : Nat := c.ctorIdx

/-- The number of a code within its family: how many codes of the family stand before it. -/
def sequence (c : Code) : Nat := (all.take c.index).countP fun d => d.family = c.family

/-- Every code stands in the list at its own place. -/
theorem all_index (c : Code) : all[c.index]? = some c := by cases c <;> rfl

/-- Codes at the same place are equal. -/
theorem index_inj {c d : Code} (h : c.index = d.index) : c = d := by
  have := all_index d
  rw [← h, all_index c] at this
  exact Option.some.inj this

/-- The code with a given name, if there is one. -/
def ofName? (name : String) : Option Code := all.find? (·.name = name)

/-- The code with a given spelling in documents, if there is one. -/
def ofKey? (key : String) : Option Code := all.find? (·.key = key)

end Code

end Deployment
