import DefLoad.Assoc

/-!
The attributes of a node, in the order in which they were first set. No key occurs twice.
-/

namespace DefLoad

structure Attributes where
  entries : Assoc String String
  distinct : entries.keys.Nodup

namespace Attributes

def empty : Attributes := ⟨[], List.nodup_nil⟩

def get? (a : Attributes) (key : String) : Option String := a.entries.get? key

def set (a : Attributes) (key value : String) : Attributes :=
  ⟨a.entries.set key value, Assoc.nodup_keys_set a.distinct key value⟩

def erase (a : Attributes) (key : String) : Attributes :=
  ⟨a.entries.erase key, Assoc.nodup_keys_erase a.distinct key⟩

/-- Sets all attributes of another node. -/
def setAll (a source : Attributes) : Attributes :=
  source.entries.foldl (fun a e => a.set e.1 e.2) a

@[simp] theorem get?_set (a : Attributes) (k j v : String) :
    (a.set k v).get? j = if k == j then some v else a.get? j := Assoc.get?_set a.entries k j v

theorem get?_erase_ne (a : Attributes) {k j : String} (h : k ≠ j) :
    (a.erase k).get? j = a.get? j := Assoc.get?_erase_ne a.entries h

end Attributes

end DefLoad
