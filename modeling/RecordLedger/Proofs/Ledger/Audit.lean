import RecordLedger.Proofs.Ledger.Outcome
import RecordLedger.Proofs.Store.Drift

/-! What an audit reports: the live ids without an index row in the order of their latest versions,
and the index rows of dead ids in the order of the index. -/
namespace RecordLedger.Ledger

open Store (Live Latest Sound VersionRow IndexRow mem_missingRows mem_staleRows missingRows
  staleRows)

variable {s : Store}

def Drift.texts (d : Drift) : String × String := (d.id.text, d.tag.text)

theorem unindexedLive_ok (sound : Sound s) :
    ∃ found, s.unindexedLive = .ok found ∧
      found.map (fun (id, tag) => (id.text, tag.text)) =
        (missingRows s).map fun r => (r.id, r.tag) := by
  have ordered : Sort.sort Store.bySequence (missingRows s) = missingRows s :=
    sound.versions.sort_filter _
  exact ordered ▸ Store.unindexedLive_read sound.versionTexts

theorem staleIndexRows_ok (sound : Sound s) :
    ∃ found, s.staleIndexRows = .ok found ∧
      found.map (fun e => (e.id.text, e.tag.text)) = (staleRows s).map fun r => (r.id, r.tag) := by
  have ordered : Sort.sort (fun a b : IndexRow => decide (a.sequence ≤ b.sequence)) (staleRows s) =
      staleRows s :=
    sound.index.sort_filter _
  exact ordered ▸ Store.staleIndexRows_read sound.indexTexts

/-- An audit of a sound store succeeds; its entries have the texts of the rows it found. -/
theorem audit_answer (sound : Sound s) :
    ∃ report, (∀ now, (audit (Store.answer now)).outcome s = (.ok report, s)) ∧
      report.missing.map Drift.texts = (missingRows s).map (fun r => (r.id, r.tag)) ∧
      report.stale.map Drift.texts = (staleRows s).map (fun r => (r.id, r.tag)) := by
  obtain ⟨missing, foundMissing, missingTexts⟩ := unindexedLive_ok sound
  obtain ⟨stale, foundStale, staleTexts⟩ := staleIndexRows_ok sound
  refine ⟨⟨missing.map fun (id, tag) => ⟨id, tag⟩, stale.map fun e => ⟨e.id, e.tag⟩⟩, ?_, ?_, ?_⟩
  · intro now
    have first : Store.answer now .unindexedLive s = (.ok missing, s) := by
      simp only [Store.answer, foundMissing]
    have second : Store.answer now .staleIndexRows s = (.ok stale, s) := by
      simp only [Store.answer, foundStale]
    rw [audit, Action.outcome_call_bind first, Action.outcome_call_bind second]
    rfl
  · rw [← missingTexts, List.map_map]; rfl
  · rw [← staleTexts, List.map_map]; rfl

theorem audit_indexed (now : Instant) (sound : Sound s)
    (indexed : ∀ id, s.isIndexed id = true ↔ Live s id) :
    (audit (Store.answer now)).outcome s = (.ok ⟨[], []⟩, s) := by
  have nothing_missing : missingRows s = [] := by
    refine List.eq_nil_iff_forall_not_mem.mpr fun r member => ?_
    obtain ⟨latest, live, absent⟩ := (mem_missingRows sound.keyed).mp member
    have present := (indexed r.id).mpr ⟨r, latest, live⟩
    rw [absent] at present
    cases present
  have nothing_stale : staleRows s = [] := by
    refine List.eq_nil_iff_forall_not_mem.mpr fun r member => ?_
    obtain ⟨listed, dead⟩ := (mem_staleRows sound.keyed).mp member
    exact dead ((indexed r.id).mp ((Store.isIndexed_iff s r.id).mpr ⟨r, listed, rfl⟩))
  obtain ⟨⟨missing, stale⟩, met, missingTexts, staleTexts⟩ := audit_answer sound
  rw [nothing_missing, List.map_nil, List.map_eq_nil_iff] at missingTexts
  rw [nothing_stale, List.map_nil, List.map_eq_nil_iff] at staleTexts
  obtain rfl : missing = [] := missingTexts
  obtain rfl : stale = [] := staleTexts
  exact met now

theorem reconcile_indexed (now : Instant) (sound : Sound s)
    (indexed : ∀ id, s.isIndexed id = true ↔ Live s id) :
    (reconcile (Store.answer now)).outcome s = (.ok ⟨[], []⟩, s) := by
  rw [reconcile, Action.outcome_bind, audit_indexed now sound indexed]
  rfl

end RecordLedger.Ledger
