import RecordLedger.Proofs.Json.Values

/-! A regular value is read back from its text: the same value where all its numbers are integers,
and some value in any case. -/
namespace RecordLedger.Json

theorem ofString_written (s : String) : (Token.string (Piece.ofString s)).Written :=
  ⟨s.toList, rfl⟩

mutual

theorem tokens_written (v : Json) : ∀ t ∈ v.form.tokens, t.Written := by
  match v with
  | .null | .bool _ => exact List.forall_mem_singleton.mpr trivial
  | .int n => exact List.forall_mem_singleton.mpr (Numeral.ofInt_written n)
  | .float x => exact List.forall_mem_singleton.mpr (Numeral.ofFloat_written x)
  | .string s => exact List.forall_mem_singleton.mpr (ofString_written s)
  | .array xs =>
    exact List.forall_mem_cons.mpr ⟨trivial, elementTokens_written xs⟩
  | .object ms =>
    exact List.forall_mem_cons.mpr ⟨trivial, memberTokens_written ms⟩

theorem elementTokens_written (xs : List Json) :
    ∀ t ∈ Form.elementTokens (forms xs), t.Written := by
  match xs with
  | [] => exact List.forall_mem_singleton.mpr trivial
  | [x] =>
    refine List.forall_mem_append.mpr ⟨tokens_written x, ?_⟩
    exact List.forall_mem_singleton.mpr trivial
  | x :: y :: ys =>
    refine List.forall_mem_append.mpr ⟨tokens_written x, ?_⟩
    exact List.forall_mem_cons.mpr ⟨trivial, elementTokens_written (y :: ys)⟩

theorem memberTokens_written (ms : List (String × Json)) :
    ∀ t ∈ Form.memberTokens (memberForms ms), t.Written := by
  match ms with
  | [] => exact List.forall_mem_singleton.mpr trivial
  | [(key, x)] =>
    refine List.forall_mem_cons.mpr ⟨ofString_written key, List.forall_mem_cons.mpr ⟨trivial, ?_⟩⟩
    refine List.forall_mem_append.mpr ⟨tokens_written x, ?_⟩
    exact List.forall_mem_singleton.mpr trivial
  | (key, x) :: m :: ms =>
    refine List.forall_mem_cons.mpr ⟨ofString_written key, List.forall_mem_cons.mpr ⟨trivial, ?_⟩⟩
    refine List.forall_mem_append.mpr ⟨tokens_written x, ?_⟩
    exact List.forall_mem_cons.mpr ⟨trivial, memberTokens_written (m :: ms)⟩

end

mutual

theorem value?_form {depth : Nat} (v : Json) (regular : Regular depth v) :
    ∃ w, v.form.value? depth = some w ∧ (Integral v → w = v) := by
  match v with
  | .null | .bool _ => exact ⟨_, rfl, fun _ => rfl⟩
  | .int n => exact ⟨_, Numeral.json?_ofInt regular, fun _ => rfl⟩
  | .float x =>
    obtain ⟨w, read⟩ := Numeral.json?_ofFloat regular
    exact ⟨w, read, False.elim⟩
  | .string s =>
    exact ⟨.string s, by rw [form, Form.value?, Piece.string?_ofString]; rfl, fun _ => rfl⟩
  | .array xs =>
    cases depth with
    | zero => exact regular.elim
    | succ depth =>
      obtain ⟨ws, read, same⟩ := values?_forms xs regular
      exact ⟨.array ws, by rw [form, Form.value?, read]; rfl, fun whole => by rw [same whole]⟩
  | .object ms =>
    cases depth with
    | zero => exact regular.elim
    | succ depth =>
      obtain ⟨ws, read, same⟩ := memberValues?_memberForms ms regular.2
      refine ⟨ofMembers ws, by rw [form, Form.value?, read]; rfl, fun whole => ?_⟩
      rw [same whole, ofMembers, Members.ofList_ordered regular.1]

theorem values?_forms {depth : Nat} (xs : List Json) (regular : RegularAll depth xs) :
    ∃ ws, Form.values? depth (forms xs) = some ws ∧ (IntegralAll xs → ws = xs) := by
  match xs with
  | [] => exact ⟨[], rfl, fun _ => rfl⟩
  | x :: xs =>
    obtain ⟨w, first, same⟩ := value?_form x regular.1
    obtain ⟨ws, rest, others⟩ := values?_forms xs regular.2
    refine ⟨w :: ws, by simp only [forms, Form.values?, first, rest], fun whole => ?_⟩
    rw [same whole.1, others whole.2]

theorem memberValues?_memberForms {depth : Nat} (ms : List (String × Json))
    (regular : RegularMembers depth ms) :
    ∃ ws, Form.memberValues? depth (memberForms ms) = some ws ∧ (IntegralMembers ms → ws = ms) := by
  match ms with
  | [] => exact ⟨[], rfl, fun _ => rfl⟩
  | (key, x) :: ms =>
    obtain ⟨w, first, same⟩ := value?_form x regular.1
    obtain ⟨ws, rest, others⟩ := memberValues?_memberForms ms regular.2
    refine ⟨(key, w) :: ws, ?_, fun whole => by rw [same whole.1, others whole.2]⟩
    simp only [memberForms, Form.memberValues?, Piece.string?_ofString, first, rest]

end

/-- The text of a regular value can be read. -/
theorem ofText?_compact {v : Json} (regular : Regular maxDepth v) :
    ∃ w, ofText? v.compact = some w ∧ (Integral v → w = v) := by
  obtain ⟨w, read, same⟩ := value?_form v regular
  refine ⟨w, ?_, same⟩
  rw [ofText?, compact, String.toList_ofList, Form.ofText?_compact _ (tokens_written v)]
  exact read

/-- The text of an object is that of an object. -/
theorem ofText?_compact_object {ms : Members} (regular : Regular maxDepth (.object ms)) :
    ∃ ns, ofText? (object ms).compact = some (.object ns) := by
  obtain ⟨w, read, _⟩ := value?_form (.object ms) regular
  obtain ⟨ws, _, rfl⟩ := Option.map_eq_some_iff.mp read
  refine ⟨Members.ofList ws, ?_⟩
  rw [ofText?, compact, String.toList_ofList, Form.ofText?_compact _ (tokens_written _)]
  exact read

theorem ofText?_regular {s : String} {v : Json} (read : ofText? s = some v) :
    Regular maxDepth v := by
  obtain ⟨f, _, read⟩ := Option.bind_eq_some_iff.mp read
  exact value?_regular f read

/-- A regular value without floating-point numbers is what its text stands for. -/
theorem ofText?_compact_integral {v : Json} (regular : Regular maxDepth v) (whole : Integral v) :
    ofText? v.compact = some v := by
  obtain ⟨w, read, same⟩ := ofText?_compact regular
  rw [read, same whole]

end RecordLedger.Json
