import RightLinear.Event

namespace RightLinear

structure Traced (α : Type) where
  events : List Event
  result : Except Error α

namespace Traced

variable {α β γ : Type}

def lift (r : Except Error α) : Traced α := ⟨[], r⟩

def emit (e : Event) : Traced Unit := ⟨[e], .ok ()⟩

def emitAll (es : List Event) : Traced Unit := ⟨es, .ok ()⟩

def attempt (x : Traced α) : Traced (Except Error α) := ⟨x.events, .ok x.result⟩

protected def bind (x : Traced α) (f : α → Traced β) : Traced β :=
  match x.result with
  | .ok a => ⟨x.events ++ (f a).events, (f a).result⟩
  | .error e => ⟨x.events, .error e⟩

instance : Monad Traced where
  pure a := ⟨[], .ok a⟩
  bind := Traced.bind

instance : LawfulMonad Traced := LawfulMonad.mk' Traced
  (fun x => by
    obtain ⟨es, r⟩ := x
    cases r <;> simp [Functor.map, Traced.bind])
  (fun a f => by simp [pure, bind, Traced.bind])
  (fun x f g => by
    obtain ⟨es, r⟩ := x
    cases r with
    | error e => rfl
    | ok a =>
      simp only [bind, Traced.bind]
      cases (f a).result <;> simp)

instance : MonadExceptOf Error Traced where
  throw e := lift (.error e)
  tryCatch x f :=
    match x.result with
    | .ok _ => x
    | .error e => ⟨x.events ++ (f e).events, (f e).result⟩

@[simp] theorem result_pure (a : α) : (pure a : Traced α).result = .ok a := rfl

@[simp] theorem result_lift (r : Except Error α) : (lift r).result = r := rfl

@[simp] theorem result_throw (e : Error) : (throw e : Traced α).result = .error e := rfl

@[simp] theorem result_attempt (x : Traced α) : x.attempt.result = .ok x.result := rfl

@[simp] theorem result_bind (x : Traced α) (f : α → Traced β) :
    (x >>= f).result = x.result.bind fun a => (f a).result := by
  obtain ⟨es, r⟩ := x
  cases r <;> rfl

end Traced

end RightLinear
