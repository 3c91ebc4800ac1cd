import ShapeCodec.Command.Request
import ShapeCodec.Proofs.Results

/-! # Inputs of a command line

An option that takes inputs takes at least one, so a request to load that comes from a command line
has something to load.
-/

namespace ShapeCodec

namespace Options

variable {o o' : Options} {values : List String}

def HasInput (o : Options) : Prop := ∀ inputs, o.inputs? = some inputs → inputs ≠ []

theorem HasInput.take {option : ValueOption} (h : o.HasInput)
    (ht : o.take option values = .ok o') : o'.HasInput := by
  cases option <;> simp only [Options.take] at ht
  case document | out =>
    obtain ⟨_, -, rfl⟩ := map_eq_ok_iff.mp ht
    exact h
  case input =>
    split at ht
    · cases ht
    · rename_i hv
      cases ht
      rintro _ ⟨⟩ he
      obtain ⟨-, rfl⟩ := List.append_eq_nil_iff.mp he
      exact hv rfl

theorem HasInput.settle {pending : Option Pending} (h : o.HasInput)
    (hs : o.settle pending = .ok o') : o'.HasInput := by
  cases pending with
  | none =>
    cases hs
    exact h
  | some p => exact h.take hs

theorem HasInput.turnOn {s : Switch} (h : o.HasInput) (hs : o.turnOn s = .ok o') :
    o'.HasInput := by
  unfold Options.turnOn at hs
  split at hs
  · cases hs
  · cases hs
    exact h

theorem HasInput.recognise {pending pending' : Option Pending} {option : KnownOption}
    {value? : Option String} (h : o.HasInput)
    (hr : o.recognise pending option value? = .ok (o', pending')) : o'.HasInput := by
  unfold Options.recognise at hr
  split at hr
  · obtain ⟨p, hp, hr⟩ := bind_eq_ok_iff.mp hr
    obtain ⟨rfl, -⟩ := Prod.mk.inj (pure_eq_ok_iff.mp hr)
    exact h.settle hp
  · obtain ⟨p, hp, hr⟩ := bind_eq_ok_iff.mp hr
    obtain ⟨q, hq, hr⟩ := bind_eq_ok_iff.mp hr
    obtain ⟨rfl, -⟩ := Prod.mk.inj (pure_eq_ok_iff.mp hr)
    exact (h.settle hp).take hq
  · cases hr
  · obtain ⟨_, -, hr⟩ := bind_eq_ok_iff.mp hr
    cases hr
  · obtain ⟨p, hp, hr⟩ := bind_eq_ok_iff.mp hr
    obtain ⟨q, hq, hr⟩ := bind_eq_ok_iff.mp hr
    obtain ⟨rfl, -⟩ := Prod.mk.inj (pure_eq_ok_iff.mp hr)
    exact (h.settle hp).turnOn hq

theorem HasInput.read {c : CommandName} {pending : Option Pending} {words : List Word}
    (h : o.HasInput) (hr : o.read c pending words = .ok o') : o'.HasInput := by
  induction words generalizing o pending with
  | nil => exact h.settle hr
  | cons word rest ih =>
    cases word with
    | endOfOptions =>
      unfold Options.read at hr
      split at hr
      · exact h.settle hr
      · cases hr
    | long name value? =>
      unfold Options.read at hr
      split at hr
      · cases hr
      · obtain ⟨⟨p, q⟩, hp, hr⟩ := bind_eq_ok_iff.mp hr
        exact ih (h.recognise hp) hr
    | short letter cs =>
      unfold Options.read at hr
      split at hr
      · cases hr
      · obtain ⟨_, -, hr⟩ := bind_eq_ok_iff.mp hr
        cases hr
      · obtain ⟨⟨p, q⟩, hp, hr⟩ := bind_eq_ok_iff.mp hr
        exact ih (h.recognise hp) hr
    | plain text =>
      unfold Options.read at hr
      split at hr
      · split at hr
        · exact ih h hr
        · cases hr
      · cases hr

end Options

theorem Request.inputs_ne_nil {words : List String} {r : LoadRequest}
    (h : ofArguments words = .ok (.load r)) : r.inputs ≠ [] := by
  unfold ofArguments at h
  split at h
  · cases h
  · split at h
    · split at h
      · rename_i c _
        obtain ⟨o, ho, hr⟩ := bind_eq_ok_iff.mp h
        have hinput : o.HasInput := Options.HasInput.read (o := {}) nofun ho
        unfold Options.toRequest at hr
        split at hr
        · cases hr
        · rename_i hi _
          cases hr
          exact hinput _ hi
        · cases hr
      · cases h
    · split at h <;> cases h
    · cases h
    · cases h

end ShapeCodec
