import Mathlib.Logic.Function.Basic
import Wasmig.Base.History

/-! Objects at addresses.

Objects of a kind are created, called and destroyed; an address may be used again once its
object is gone. What a place in an object holds is changed by the calls on that object, and
emptied when an object is created there (`Kind.Step.bind_place`). An address that was good to
pass on is so after any step but the destruction of its object (`Kind.Step.usable_iff`). -/
namespace Base

/-- A kind of objects: what a new one holds, what a call makes of one, and the calls that
do nothing when they are given no object. -/
structure Kind (ω κ : Type) where
  init : ω
  next : ω → κ → ω
  nullSafe : κ → Prop

/-- The objects of a kind at their addresses. There is none at 0. -/
abbrev Objects (ω : Type) := Nat → Option ω

/-- What is done with an object. -/
inductive ObjectAction (κ : Type) where
  | create (address : Nat)
  | destroy (address : Nat)
  | call (address : Nat) (c : κ)

/-- An address to pass on: no object's, or that of an object there is. -/
def Objects.Usable {ω : Type} (o : Objects ω) (address : Nat) : Prop := address = 0 ∨ (o address).isSome = true

namespace Kind
variable {ω κ ν : Type}

/-- A step of a process that uses only objects there are. -/
inductive Step (kind : Kind ω κ) (o : Objects ω) : ObjectAction κ → Objects ω → Prop where
  | create {address : Nat} (fresh : o address = none) (somewhere : address ≠ 0) :
    Step kind o (.create address) (Function.update o address (some kind.init))
  | destroy {address : Nat} {x : ω} (live : o address = some x) :
    Step kind o (.destroy address) (Function.update o address none)
  | destroyNull : Step kind o (.destroy 0) o
  | call {address : Nat} {x : ω} (live : o address = some x) (c : κ) :
    Step kind o (.call address c) (Function.update o address (some (kind.next x c)))
  | callNull {c : κ} (safe : kind.nullSafe c) : Step kind o (.call 0 c) o

/-- What an action does to a place in the object at an address. -/
def effectAt (effect : ω → κ → Effect ν) (address : Nat) (o : Objects ω) : ObjectAction κ → Effect ν
  | .create address' => if address' = address then .clear else .keep
  | .destroy address' => if address' = address then .clear else .keep
  | .call address' c => if address' = address then ((o address).map fun x => effect x c).getD .keep else .keep

variable {kind : Kind ω κ} {place : ω → Option ν} {effect : ω → κ → Effect ν} {o o' : Objects ω} {a : ObjectAction κ}

/-- A place is changed by calls on its own object, and emptied when that comes or goes. -/
theorem Step.bind_place (hstep : kind.Step o a o') (hinit : place kind.init = none)
    (hnext : ∀ x c, place (kind.next x c) = (effect x c).apply (place x)) {address : Nat} (haddress : address ≠ 0) :
    (o' address).bind place = (effectAt effect address o a).apply ((o address).bind place) := by
  cases hstep with
  | @create address' fresh somewhere =>
    by_cases hsame : address' = address
    · simp [effectAt, Effect.apply, hsame, hinit]
    · simp [effectAt, Effect.apply, hsame, Ne.symm hsame]
  | @destroy address' x live =>
    by_cases hsame : address' = address
    · simp [effectAt, Effect.apply, hsame]
    · simp [effectAt, Effect.apply, hsame, Ne.symm hsame]
  | destroyNull => simp [effectAt, Effect.apply, haddress.symm]
  | @call address' x live c =>
    by_cases hsame : address' = address
    · cases hsame
      simp [effectAt, live, hnext]
    · simp [effectAt, Effect.apply, hsame, Ne.symm hsame]
  | callNull => simp [effectAt, Effect.apply, haddress.symm]

/-- An address goes on being usable unless its object is destroyed. -/
theorem Step.usable_iff (hstep : kind.Step o a o') {address : Nat} (haddress : o.Usable address) :
    o'.Usable address ↔ ¬ (a = .destroy address ∧ address ≠ 0) := by
  unfold Objects.Usable at haddress ⊢
  cases hstep with
  | @create address' fresh somewhere =>
    refine iff_of_true (haddress.imp_right fun hlive => ?_) (by simp)
    rwa [Function.update_of_ne fun hsame => by simp [hsame, fresh] at hlive]
  | @destroy address' x live =>
    by_cases hsame : address = address'
    · simp [hsame]
    · rw [Function.update_of_ne hsame]
      exact iff_of_true haddress fun hboth => hsame (ObjectAction.destroy.inj hboth.1).symm
  | destroyNull => exact iff_of_true haddress fun hboth => hboth.2 (ObjectAction.destroy.inj hboth.1).symm
  | @call address' x live c =>
    refine iff_of_true (haddress.imp_right fun hlive => ?_) (by simp)
    by_cases hsame : address = address'
    · simp [hsame]
    · rwa [Function.update_of_ne hsame]
  | callNull => exact iff_of_true haddress (by simp)

end Kind

end Base
