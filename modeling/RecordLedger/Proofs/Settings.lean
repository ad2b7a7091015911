import RecordLedger.Proofs.Toml.Lines
import RecordLedger.Settings

/-! Settings are read back as they were written. What is not written has its default when it is
read, so a path that is absent must not come back as the path of the defaults. -/
namespace RecordLedger

theorem StoreSettings.ofToml?_members (path : Option String) (wal : Bool) (busyTimeout : Nat) :
    StoreSettings.ofToml? (.table .header ((path.map fun p => ("path", Toml.string p)).toList ++
      [("wal", .bool wal), ("busy_timeout_ms", .int busyTimeout)])) =
      some ⟨path, wal, busyTimeout⟩ := by
  cases path <;>
    simp [StoreSettings.ofToml?, Toml.fields?, Toml.Members.find?, Toml.fieldOr, Toml.string?,
      Toml.bool?, Toml.nat?, StoreSettings.default]

namespace Settings

open Toml.Reader (Bare Entry Spells)

theorem ofToml?_members (pageSize : Nat) {store : StoreSettings} {t : Toml}
    (read : StoreSettings.ofToml? t = some store) :
    ofToml? (.table .header [("default_page_size", .int pageSize), ("store", t)]) =
      some ⟨pageSize, store⟩ := by
  simp [ofToml?, Toml.fields?, Toml.Members.find?, Toml.fieldOr, Toml.nat?, read]

/-- Settings that the numbers of TOML can hold and whose path needs no escapes. -/
structure Writable (s : Settings) : Prop where
  some_record : 1 ≤ s.pageSize
  pageSize : s.pageSize ≤ Word.maxSigned
  busyTimeout : s.store.busyTimeout ≤ Word.maxSigned
  path : ∀ p, s.store.path = some p → ∀ c ∈ p.toList, Toml.Quoted.Plain c

theorem default_writable : default.Writable where
  some_record := by decide
  pageSize := by decide
  busyTimeout := by decide
  path p named := by
    cases named
    exact Toml.Quoted.plain_of_all (by decide)

theorem spells_boolText (b : Bool) : Spells (boolText b) (.bool b) := by
  cases b
  · exact Toml.Reader.spells_scalar (by decide) (List.all_eq_true.mp (by decide)) rfl
  · exact Toml.Reader.spells_scalar (by decide) (List.all_eq_true.mp (by decide)) rfl

theorem bare_key {key : String} (filled : key.toList ≠ [])
    (chars : key.toList.all Toml.Reader.isBareKeyChar = true) : Bare key :=
  ⟨filled, List.all_eq_true.mp chars⟩

def pageEntry (n : Nat) (fits : n ≤ Word.maxSigned) : Entry where
  key := "default_page_size"
  text := Text.Numeral.ofNat n
  value := .int n
  bare := bare_key (by decide) (by decide)
  spells := Toml.Reader.spells_ofNat fits

def pathEntry (p : String) (plain : ∀ c ∈ p.toList, Toml.Quoted.Plain c) : Entry where
  key := "path"
  text := Toml.Quoted.write p.toList
  value := .string p
  bare := bare_key (by decide) (by decide)
  spells := by
    have spells := Toml.Reader.spells_string plain
    rwa [String.ofList_toList] at spells

def walEntry (b : Bool) : Entry where
  key := "wal"
  text := boolText b
  value := .bool b
  bare := bare_key (by decide) (by decide)
  spells := spells_boolText b

def timeoutEntry (n : Nat) (fits : n ≤ Word.maxSigned) : Entry where
  key := "busy_timeout_ms"
  text := Text.Numeral.ofNat n
  value := .int n
  bare := bare_key (by decide) (by decide)
  spells := Toml.Reader.spells_ofNat fits

theorem bare_store : Bare "store" := bare_key (by decide) (by decide)

namespace Writable

variable {s : Settings}

/-- What is written is a document of one line and the table of the store, which has a line for the
path exactly if there is one. -/
theorem text_eq (writable : s.Writable) : ∃ es : List Entry,
    s.text = String.ofList
      (Toml.document [pageEntry s.pageSize writable.pageSize] "store"
        (es ++ [walEntry s.store.wal, timeoutEntry s.store.busyTimeout writable.busyTimeout])) ∧
      es.map Entry.member = (s.store.path.map fun p => ("path", Toml.string p)).toList := by
  cases named : s.store.path with
  | none =>
    refine ⟨[], ?_, rfl⟩
    rw [text, named]
    simp [Toml.document, Entry.chars, pageEntry, walEntry, timeoutEntry, line]
  | some p =>
    refine ⟨[pathEntry p (writable.path p named)], ?_, rfl⟩
    rw [text, named]
    simp [Toml.document, Entry.chars, pageEntry, pathEntry, walEntry, timeoutEntry, line]

theorem text_ne (writable : s.Writable) : s.text ≠ "" := by
  obtain ⟨es, text, -⟩ := writable.text_eq
  intro empty
  have same := congrArg String.toList (text.symm.trans empty)
  simp [Toml.document, Entry.chars] at same

theorem read_text (writable : s.Writable) : read s.text = .ok s := by
  obtain ⟨es, text, members⟩ := writable.text_eq
  have outer : ([pageEntry s.pageSize writable.pageSize].map (·.key) ++ ["store"]).Nodup :=
    (by decide : ["default_page_size", "store"].Nodup)
  have inner : ((es ++ [walEntry s.store.wal,
      timeoutEntry s.store.busyTimeout writable.busyTimeout]).map (·.key)).Nodup := by
    have keys : es.map (·.key) = (es.map Entry.member).map (·.1) := by
      rw [List.map_map]
      rfl
    rw [List.map_append, keys, members]
    cases s.store.path with
    | none => exact (by decide : ["wal", "busy_timeout_ms"].Nodup)
    | some p => exact (by decide : ["path", "wal", "busy_timeout_ms"].Nodup)
  have document := Toml.ofText?_document bare_store outer inner
  rw [← text, List.map_append, members] at document
  have known : (Toml.ofText? s.text).bind ofToml? = some s := by
    rw [document, Option.bind_some]
    exact ofToml?_members s.pageSize (StoreSettings.ofToml?_members _ _ _)
  have filled : s.pageSize ≠ 0 := Nat.ne_of_gt writable.some_record
  unfold read
  rw [known]
  exact if_neg filled

end Writable

end Settings
end RecordLedger
