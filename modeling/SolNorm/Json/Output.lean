import SolNorm.Json.Basic
import SolNorm.Pipeline.Basic

/-!
The result of a run as a JSON document.
-/

namespace SolNorm

def AddressDeclaration.toJson (d : AddressDeclaration) : Json :=
  .object [("name", .ofOption d.name), ("type_name", .text d.type), ("role", .text d.role.word),
    ("contract_address", .bool d.isContract)]

/-- The document for a function that handles addresses. -/
def AddressUsage.toJson (u : AddressUsage) : Json :=
  .object [("contract", .text u.contract), ("function", .text u.function),
    ("declarations", .list (u.declarations.map AddressDeclaration.toJson))]

def Construction.Report.toJson (r : Construction.Report) : Json :=
  .object [("contract", .text r.contract), ("chain", .texts r.chain),
    ("synthesized", .bool r.isNeeded), ("parameters", .texts r.parameters),
    ("initializers", .texts r.initializers), ("applied", .bool r.isApplied)]

/-- The document for a function that could not be told apart. -/
def MarkedFunction.toJson (m : MarkedFunction) : Json :=
  .object [("contract", .text m.contract), ("original_name", .text m.name),
    ("new_name", .ofOption m.newName), ("original_selector", .text m.oldSelector.render),
    ("selector", .text m.selector.render), ("parameter_types", .texts m.types),
    ("canonical_types", .texts m.erasedTypes)]

def StorageVariable.toJson (v : StorageVariable) : Json :=
  .object [("contract", .text v.contract), ("name", .text v.name), ("type_name", .text v.type),
    ("constant", .bool v.isConstant), ("immutable", .bool v.isImmutable)]

/-- The document for the variables and their uses. -/
def StorageMap.toJson (m : StorageMap) : Json :=
  .object [("variables", .list (m.stateVariables.map StorageVariable.toJson)),
    ("accesses", .object (m.accesses.map fun (id, functions) => (id, .texts functions)))]

def Metadata.toJson (m : Metadata) : Json :=
  .object [("main_contract", .text m.mainContract),
    ("address_functions", .list (m.addressFunctions.map AddressUsage.toJson)),
    ("constructors", .list (m.constructors.map Construction.Report.toJson)),
    ("marked_functions",
      .object [("entries", .list (m.marking.entries.map MarkedFunction.toJson))]),
    ("storage", m.storage.toJson)]

def CallIssueKind.toJson : CallIssueKind → Json
  | .ambiguous candidates =>
    .object [("kind", .text "ambiguous"), ("candidates", .texts candidates)]
  | .unresolved => .object [("kind", .text "unresolved")]

def CallIssue.toJson (i : CallIssue) : Json :=
  .object [("kind", i.kind.toJson), ("contract", .text i.contract),
    ("function", .ofOption i.function), ("callee", .text i.callee),
    ("line", .number i.position.line), ("column", .number i.position.column)]

def Output.toJson (o : Output) : Json :=
  .object [("source", .text o.source), ("metadata", o.metadata.toJson),
    ("warnings", .list (o.warnings.map CallIssue.toJson))]

end SolNorm
