import DefLoad.Diagnostic

/-!
Results that come with findings. What is found never depends on what was found before.
-/

namespace DefLoad

structure Reported (α : Type) where
  value : α
  found : Diagnostics

namespace Reported

instance : Monad Reported where
  pure a := ⟨a, []⟩
  bind x f := ⟨(f x.value).value, x.found ++ (f x.value).found⟩

def report (d : Diagnostic) : Reported Unit := ⟨(), [d]⟩

def reportAll (ds : Diagnostics) : Reported Unit := ⟨(), ds⟩

@[simp] theorem pure_value {α : Type} (a : α) : (pure a : Reported α).value = a := rfl

@[simp] theorem pure_found {α : Type} (a : α) : (pure a : Reported α).found = [] := rfl

@[simp] theorem bind_value {α β : Type} (x : Reported α) (f : α → Reported β) :
    (x >>= f).value = (f x.value).value := rfl

@[simp] theorem bind_found {α β : Type} (x : Reported α) (f : α → Reported β) :
    (x >>= f).found = x.found ++ (f x.value).found := rfl

@[simp] theorem report_found (d : Diagnostic) : (report d).found = [d] := rfl

theorem ext {α : Type} {x y : Reported α} (hv : x.value = y.value) (hf : x.found = y.found) :
    x = y := by
  cases x; cases y; simp_all

instance : LawfulMonad Reported :=
  .mk' Reported (fun _ => ext rfl (by simp [Functor.map])) (fun _ _ => ext rfl (by simp))
    (fun _ _ _ => ext rfl (by simp))

end Reported

end DefLoad
