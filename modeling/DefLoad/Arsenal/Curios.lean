import DefLoad.Arsenal.Heroes

/-!
Defs that exercise single features: raw nodes, every plain type, recursive classes, constructors
that fail, failing callbacks, and types that do not describe themselves truly.
-/

namespace DefLoad.Arsenal

open TypeKey

def nodeDef : TypeKey := game "NodeDef"

def storedProperty (owner : TypeKey) (name : String) (k : TypeKey) (isPublic : Bool)
    (inclusion : Inclusion) (set : Value → Value → Value) : Part :=
  .member name k .property [] isPublic inclusion (.property owner k (getField name) set)

def nodeParts : List Part :=
  fieldParts nodeDef [("Raw", node), ("RawOpt", .optional node), ("Kind", .optional typeKey)] ++
    [storedProperty nodeDef "Must" typeKey true .include fun v x => v.setField "Must" x] ++
    fieldParts nodeDef [("Kinds", .list typeKey), ("Raws", .list node)]

def newNodeDef : Value :=
  newDef nodeDef
    [("Raw", node), ("RawOpt", .optional node), ("Kind", .optional typeKey),
      ("Kinds", .list typeKey), ("Raws", .list node)]
    [("Must", .typeKey string)]

def scalarFields : Fields :=
  [("B", bool), ("I32", i32), ("I64", i64), ("U8", u8), ("U32", u32), ("U64", u64),
    ("Usize", usize), ("F32", f32), ("F64", f64), ("S", string),
    ("OptOpt", .optional (.optional i32)), ("ListOpt", .list (.optional i32)),
    ("Grid", .list (.list i32)), ("OptList", .optional (.list i32)),
    ("ListMap", .list (sorted string i32)), ("OptMap", .optional (sorted string i32))]

def treeFields : Fields :=
  [("Value", i32), ("Children", .list treeNode), ("ByName", sorted string treeNode)]

def glassDef : TypeKey := game "GlassDef"

def newGlass : Value := newDef glassDef [("Value", i32)] []

def boxDef : TypeKey := game "BoxDef"

def boxFields : Fields :=
  [("Item", fragile), ("Items", .list fragile), ("Maybe", .optional fragile),
    ("Opaque", sealedText), ("Probe", probe), ("Probes", .list probe),
    ("ProbeMap", sorted string probe), ("ProbeNums", sorted i32 probe),
    ("Probed", sorted probe i32), ("OptProbe", .optional probe), ("Point", point), ("Tag", tag),
    ("Tags", .list tag)]

def setAura (v x : Value) : Value :=
  (v.setField "Aura" x).setField "auras_set" (u32Value (v.intField "auras_set" + 1))

def boxParts : List Part :=
  fieldParts boxDef boxFields ++ [storedProperty boxDef "Aura" effect true .include setAura]

def newBox : Value :=
  setFields (newDef boxDef boxFields [("Aura", burning 9 1), ("auras_set", u32Value 0)])
    [("Item", fragileValue 5), ("Opaque", .scalar sealedText (.text "sealed"))]

def trapFields : Fields :=
  [("Post", .optional string), ("Late", .optional string), ("Config", .optional string),
    ("Warn", .optional string), ("Chain", .optional string), ("Check", .optional bool)]

def addCall (mark : String) (v : Value) : Value :=
  v.setField "calls" (.string (v.textField "calls" ++ mark))

def trapCheck (v : Value) (r : ConfigReport) : ConfigReport :=
  match v.field? "Check" with
  | some (.present (.scalar _ (.bool held))) =>
    let r := r.require held "check must hold"
    if held then r.warn s!"{v.id} checked" else r
  | _ => r

def trapConfigErrors (v : Value) : ConfigReport :=
  let r := trapCheck v []
  let r := match v.optionalText "Warn" with
    | some w => r.warn w
    | none => r
  match v.optionalText "Chain" with
  | some cause => r.error s!"chained: outer: {cause}"
  | none => r

def trapRole : DefRole where
  postLoad v := (addCall "p" v, v.optionalText "Post")
  latePostLoad v :=
    (addCall "l" v, (v.optionalText "Late").map fun cause => s!"late stage: {cause}")
  configErrors v := (trapConfigErrors v, v.optionalText "Config")

def stampPatch : TypeKey := game "StampPatch"

def stampFields : Fields := [("Key", string), ("Value", string), ("Fail", .optional string)]

def stampNote (c : Context) (v : Value) : Value := v.setField "note" (.string (noteOf c))

/-- Sets an attribute on every top-level node. -/
def stamp (v : Value) (root : Node) : PatchResult × Node :=
  match v.optionalText "Fail" with
  | some reason => (.failed reason, root)
  | none =>
    let mark := v.textField "Value" ++ "|" ++ v.textField "note"
    (.ofCount root.children.length,
      { root with children := root.children.map fun c => c.setAttr (v.textField "Key") mark })

def brokenPatch : TypeKey := game "BrokenPatch"

def oddFields : Fields :=
  [("Ghost", phantom), ("Ghosts", .list phantom), ("MaybeGhost", .optional phantom),
    ("GhostMap", sorted string phantom), ("Lie", liar), ("Lies", .list liar),
    ("LieMap", sorted string liar), ("LieKeys", sorted liar i32), ("MaybeLie", .optional liar)]

def curioCatalog : Catalog :=
  [(nodeDef, .class nodeDef.title (.ok newNodeDef) nodeParts asDef),
    plainDef (game "ScalarDef") [] scalarFields [] asDef,
    plainClass treeNode treeFields {},
    plainDef (game "TreeDef") [] [("Root", treeNode), ("Forest", .list treeNode)] [] asDef,
    (glassDef,
      .class glassDef.title (.error "out of glass") (fieldParts glassDef [("Value", i32)]) asDef),
    (fragile, .class fragile.title (.error "too fragile") (fieldParts fragile [("Value", i32)]) {}),
    (boxDef, .class boxDef.title (.ok newBox) boxParts asDef),
    plainDef (game "TrapDef") [] trapFields [("calls", .string "")] { defRole := some trapRole },
    (stampPatch, .class stampPatch.title
      (.ok (.record stampPatch (initialFields stampFields ++ [("note", .string "")])))
      (fieldParts stampPatch stampFields)
      { postConstruct := some stampNote, patchRole := some stamp }),
    (brokenPatch, .class brokenPatch.title (.error "no parts") []
      { patchRole := some fun _ root => (.ofCount 0, root) }),
    plainDef (named "Mod.GunDef") [] [("Power", i32)] [] asDef,
    plainDef (named "Mod::Items::CoilDef") [] [("Turns", i32)] [] asDef,
    plainDef (named "PlainDef") [] [("N", i32)] [] asDef,
    plainDef (game "LateDef") [] [("N", i32)] [] asDef,
    plainDef (game "OddDef") [] oddFields [] asDef,
    (phantom, .silent), (liar, .sameAs i32)]

end DefLoad.Arsenal
