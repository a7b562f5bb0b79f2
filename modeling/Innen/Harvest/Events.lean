import Innen.Harvest.Model
import Innen.Journal.EventId
import Innen.Retention.Fingerprint

/-!
# The events of harvested files

The id of a file's event is the digest of its payload, and the payload has the name of the file, its bytes and, within
the provenance, the reading of the clock. Only the outermost `observed_utc` is kept out of an id. So a file that is
harvested again has the same event only when the clock reads the same.
-/

namespace Innen.Harvest

open Innen.Common Innen.Journal

variable {T : Tools}

/-! ## Payloads -/

theorem floatless_filePayload (rel : String) (bytes : ByteArray) (text now : String) :
    (Value.object (filePayload T rel bytes text now)).Floatless := by
  simp only [filePayload, provenance, Value.Floatless, Value.FloatlessFields, and_self]

/-- Nothing at the top of the payload is volatile. -/
theorem identified_filePayload (rel : String) (bytes : ByteArray) (text now : String) :
    identified (.object (filePayload T rel bytes text now)) = .object (filePayload T rel bytes text now) :=
  identified_of_get?_none rfl

/-- The payload has the name, the digest of the bytes and the reading of the clock. -/
theorem filePayload_inj {rel rel' : String} {bytes bytes' : ByteArray} {text text' now now' : String}
    (h : filePayload T rel bytes text now = filePayload T rel' bytes' text' now') :
    rel = rel' ∧ T.sha256Hex bytes = T.sha256Hex bytes' ∧ now = now' := by
  simp only [filePayload, provenance, List.cons.injEq, Prod.mk.injEq, Value.object.injEq, Value.string.injEq, true_and,
    and_true] at h
  exact ⟨h.2.2.1, h.2.2.2.2.2.2, h.2.2.2.2.1⟩

/-! ## Harvesting a file again -/

/-- Two entries have one id exactly when they are of one name, of the same bytes and of one reading of the clock. -/
theorem fileEntry_id_eq_iff (hsha : Function.Injective T.sha256Hex) {rel rel' : String} {bytes bytes' : ByteArray}
    {observed observed' appended appended' : String} :
    (fileEntry T rel bytes observed appended).id = (fileEntry T rel' bytes' observed' appended').id ↔
      rel = rel' ∧ bytes = bytes' ∧ observed = observed' := by
  have hfree : ∀ (r : String) (b : ByteArray) (now : String),
      (identified (.object (filePayload T r b (fromUtf8Lossy b) now))).Floatless := by
    intro r b now
    rw [identified_filePayload]
    exact floatless_filePayload r b _ now
  refine (eventId_eq_iff hsha (wf_filePayload T rel bytes _ observed) (wf_filePayload T rel' bytes' _ observed')
    (hfree rel bytes observed) (hfree rel' bytes' observed')).trans ?_
  rw [identified_filePayload, identified_filePayload, Value.object.injEq]
  refine ⟨fun ⟨_, h⟩ => ?_, ?_⟩
  · obtain ⟨hrel, hbytes, hnow⟩ := filePayload_inj h
    exact ⟨hrel, hsha hbytes, hnow⟩
  · rintro ⟨rfl, rfl, rfl⟩
    exact ⟨rfl, rfl⟩

/-- Ingesting twice gives one event for one file and two for two files exactly when the clock reads the same, should it
be one file. -/
theorem reingest_convergent_iff (hsha : Function.Injective T.sha256Hex) (rel rel' : String) (bytes bytes' : ByteArray)
    (observed observed' appended appended' : String) :
    ((fileEntry T rel bytes observed appended).id = (fileEntry T rel' bytes' observed' appended').id ↔
        rel = rel' ∧ bytes = bytes') ↔
      (rel = rel' → bytes = bytes' → observed = observed') := by
  rw [fileEntry_id_eq_iff hsha]
  constructor
  · intro h hrel hbytes
    exact (h.mpr ⟨hrel, hbytes⟩).2.2
  · intro h
    exact ⟨fun hids => ⟨hids.1, hids.2.1⟩, fun hfile => ⟨hfile.1, hfile.2, h hfile.1 hfile.2⟩⟩

/-! ## A note that is harvested twice -/

/-- A library with a digest that keeps all of its input. -/
def plainTools : Tools where
  floatText _ := "0.0"
  parseValue _ := none
  parseEntry _ := none
  sha256Hex bytes := Retention.plainDigest bytes.data.toList
  parseCursor _ := none

theorem plainTools_sha256Hex_injective : Function.Injective plainTools.sha256Hex := by
  intro bytes bytes' h
  exact ByteArray.ext (Array.ext' (Retention.plainDigest_injective h))

/-- Harvested a second later, the same note has another event. -/
theorem reingest_second_event :
    Function.Injective plainTools.sha256Hex ∧
      (fileEntry plainTools "note.md" "text".toUTF8 "2026-01-01T00:00:00Z" "2026-01-01T00:00:00Z").id ≠
        (fileEntry plainTools "note.md" "text".toUTF8 "2026-01-01T00:00:01Z" "2026-01-01T00:00:01Z").id := by
  refine ⟨plainTools_sha256Hex_injective, fun h => ?_⟩
  obtain ⟨-, -, hclock⟩ := (fileEntry_id_eq_iff plainTools_sha256Hex_injective).mp h
  exact absurd hclock (by decide)

/-- Within the second it has the event it had. -/
theorem reingest_same_second :
    ((fileEntry plainTools "note.md" "text".toUTF8 "2026-01-01T00:00:00Z" "2026-01-01T00:00:00Z").id =
          (fileEntry plainTools "note.md" "text".toUTF8 "2026-01-01T00:00:00Z" "2026-01-01T00:00:01Z").id ↔
        "note.md" = "note.md" ∧ "text".toUTF8 = "text".toUTF8) ↔
      ("note.md" = "note.md" → "text".toUTF8 = "text".toUTF8 → "2026-01-01T00:00:00Z" = "2026-01-01T00:00:00Z") :=
  reingest_convergent_iff plainTools_sha256Hex_injective _ _ _ _ _ _ _ _

end Innen.Harvest
