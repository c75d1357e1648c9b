import DefLoad.Decimal.Numeral
import DefLoad.Types.Builder

/-!
The types that every program has: plain values, and the patch that edits the tree.
-/

namespace DefLoad

/-- A public field and the default that is left behind when it is taken. -/
def Part.field (owner : TypeKey) (name : String) (type : TypeKey) (default : Value) : Part :=
  .member name type .field [] true .default (.field owner type name default)

namespace Core

open TypeKey

/-- Integer types and their ranges. -/
def integers : List (TypeKey × Decimal.Range) :=
  [(i32, .signed 32), (i64, .signed 64), (u8, .unsigned 8), (u32, .unsigned 32),
    (u64, .unsigned 64), (usize, .unsigned 64)]

def floats : List (TypeKey × Decimal.Format) := [(f32, .single), (f64, .double)]

def treeEdit : TypeKey := .named "defloom.ModifyPatch"

def patchOperation : TypeKey := .named "defloom.PatchOperation"

def operation (o : Operation) : Value :=
  .scalar patchOperation (.variant ((Operation.all.findIdx? (· = o)).getD 0))

def operationOf : Value → Operation
  | .scalar _ (.variant i) => Operation.all[i]?.getD .modifyOrAdd
  | _ => .modifyOrAdd

def valueNode (v : Value) : Option Node :=
  match v.field? "Value" with
  | some (.present (.scalar _ (.node n))) => some n
  | _ => none

/-- The patch that an instance of the patch type describes. -/
def patchOf (v : Value) : TreeEdit :=
  ⟨v.textField "Path", ((v.field? "Operation").map operationOf).getD .modifyOrAdd, valueNode v⟩

def newPatch : Value :=
  .record treeEdit
    [("Path", .string ""), ("Operation", operation .modifyOrAdd), ("Value", .absent node)]

def patchParts : List Part :=
  [.field treeEdit "Path" string (.string ""),
    .field treeEdit "Operation" patchOperation (operation .modifyOrAdd),
    .field treeEdit "Value" (.optional node) (.absent node)]

def zero (k : TypeKey) : TypeKey × Declaration := (k, .scalar k.title (some (.int k 0)))

def zeroBits (k : TypeKey) : TypeKey × Declaration :=
  (k, .scalar k.title (some (.scalar k (.bits 0))))

def catalog : Catalog :=
  [(bool, .scalar bool.title (some (.bool false)))] ++ integers.map (zero ·.1) ++
    floats.map (zeroBits ·.1) ++
    [(string, .scalar string.title (some (.string ""))),
      (node, .scalar node.title (some (.node (Node.named "")))),
      (typeKey, .scalar typeKey.title none),
      (patchOperation, .enumeration patchOperation.title (Operation.all.map Operation.name)),
      (treeEdit, .class treeEdit.title (.ok newPatch) patchParts
        { patchRole := some fun v root => (patchOf v).execute root })]

/-- The order in which they enter the table. -/
def order : List TypeKey :=
  [bool] ++ integers.map Prod.fst ++ floats.map Prod.fst ++ [string, node, typeKey, treeEdit]

/-- A builder that knows a program's declarations and has the standard types in its first schema. -/
def builder (declared : Catalog) : Builder :=
  (Builder.empty (catalog ++ declared)).registerAll order

/-- The standard types alone. -/
def table : TypeTable := (builder []).table

end Core

end DefLoad
