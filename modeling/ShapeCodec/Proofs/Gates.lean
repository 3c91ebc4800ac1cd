import ShapeCodec.Codec
import ShapeCodec.Proofs.Decoding.Parts
import ShapeCodec.Proofs.Shape.Parts

/-! # The gates of the calls

A call succeeds when its shape passes the classification and the engine behind it succeeds.
-/

namespace ShapeCodec

variable {o : Settings} {s : Shape}

namespace Shape

theorem satisfies_encodable_iff :
    s.satisfies .encodable = true ↔ s.checkable = true ∧ s.encodable = true := by
  simp [satisfies]

theorem satisfies_of_mem_parts {p : Shape} (hs : s.satisfies .encodable = true)
    (hp : p ∈ s.parts) : p.satisfies .encodable = true := by
  obtain ⟨hc, he⟩ := satisfies_encodable_iff.mp hs
  exact satisfies_encodable_iff.mpr ⟨checkable_of_mem_parts hc hp, encodable_of_mem_parts he hp⟩

theorem ensure_of_satisfies {judgment : Judgment} (h : s.satisfies judgment = true) :
    s.ensure judgment = .ok () := if_pos h

end Shape

theorem isInstance_of_checkable {v : Value} (h : s.checkable = true) :
    isInstance o s v = .ok ⟨s.conforms o v, ⟨s.complaints o v⟩⟩ := by
  rw [isInstance, Shape.ensure_of_satisfies (by simpa [Shape.satisfies] using h)]
  rfl

theorem decode_eq_ok_iff {j : Json} {v : Value} :
    decode o s j = .ok v ↔
      s.satisfies .encodable = true ∧ s.decodeJson o j = .ok v := by
  rw [decode, Shape.ensure]
  split
  · rename_i h
    rw [and_iff_right h]
    exact mapError_eq_ok_iff
  · rename_i h
    exact ⟨fun h' => (nomatch h'), fun h' => (h h'.1).elim⟩

theorem encode_of_satisfies {v : Value} (h : s.satisfies .encodable = true)
    (hv : s.conforms o v = true) :
    encode o s v = (s.encodeValue o v).mapError fun r => .conformance ⟨[r]⟩ := by
  rw [encode, Shape.ensure_of_satisfies h]
  exact if_pos hv

theorem encode_eq_ok_iff {v : Value} {j : Json} :
    encode o s v = .ok j ↔ s.satisfies .encodable = true ∧ s.conforms o v = true ∧
      s.encodeValue o v = .ok j := by
  by_cases h : s.satisfies .encodable = true
  · by_cases hv : s.conforms o v = true
    · rw [encode_of_satisfies h hv, mapError_eq_ok_iff]
      simp [h, hv]
    · rw [encode, Shape.ensure_of_satisfies h]
      simp [bind, Except.bind, hv]
  · rw [encode, Shape.ensure, if_neg h]
    simp [bind, Except.bind, h]

theorem dump_eq_ok_iff {v : Value} {t : String} :
    dump o s v = .ok t ↔ ∃ j, encode o s v = .ok j ∧ j.write = t := by
  rw [dump]
  cases encode o s v <;> simp [Except.map]

theorem load_eq_ok_iff {t : String} {v : Value} :
    load o s t = .ok v ↔ ∃ j, Json.read t = .ok j ∧ decode o s j = .ok v := by
  rw [load]
  cases Json.read t <;> simp [Except.mapError, bind, Except.bind]

end ShapeCodec
