import RecordLedger.Json.Reader
import RecordLedger.Proofs.Json.Forms

/-! Values, read back from their text. A reader makes regular values only, and a regular value
without floating-point numbers is what its text stands for. -/
namespace RecordLedger.Json

def Members.Ordered (ms : Members) : Prop := ms.Pairwise fun a b => a.1 < b.1

theorem Members.mem_set {key : String} {value : Json} {ms : Members} {m : String × Json}
    (member : m ∈ ms.set key value) : m = (key, value) ∨ m ∈ ms := by
  induction ms with
  | nil => exact .inl (List.mem_singleton.mp member)
  | cons m' rest ih =>
    obtain ⟨k, v⟩ := m'
    unfold set at member
    split at member
    · exact List.mem_cons.mp member
    split at member
    · rcases List.mem_cons.mp member with same | member
      · exact .inl same
      · exact .inr (List.mem_cons_of_mem _ member)
    · rcases List.mem_cons.mp member with rfl | member
      · exact .inr List.mem_cons_self
      · exact (ih member).imp_right (List.mem_cons_of_mem _)

theorem Members.Ordered.set {ms : Members} (ordered : ms.Ordered) (key : String) (value : Json) :
    (ms.set key value).Ordered := by
  induction ms with
  | nil => exact List.pairwise_singleton ..
  | cons m rest ih =>
    obtain ⟨k, v⟩ := m
    obtain ⟨first, others⟩ := List.pairwise_cons.mp ordered
    unfold Members.set
    split
    · next before =>
      refine List.pairwise_cons.mpr ⟨fun m member => ?_, ordered⟩
      rcases List.mem_cons.mp member with rfl | member
      · exact before
      · exact String.lt_trans before (first m member)
    split
    · next same => exact List.pairwise_cons.mpr ⟨fun m member => same ▸ first m member, others⟩
    · next behind other =>
      have after : k < key := Decidable.byContradiction fun not_after =>
        other (String.le_antisymm (String.not_lt.mp not_after) (String.not_lt.mp behind))
      refine List.pairwise_cons.mpr ⟨fun m member => ?_, ih others⟩
      rcases mem_set member with rfl | member
      · exact after
      · exact first m member

theorem Members.set_last {key : String} (value : Json) {ms : Members}
    (last : ∀ m ∈ ms, m.1 < key) : ms.set key value = ms ++ [(key, value)] := by
  induction ms with
  | nil => rfl
  | cons m rest ih =>
    obtain ⟨k, v⟩ := m
    obtain ⟨first, others⟩ := List.forall_mem_cons.mp last
    have other : key ≠ k := fun same => String.lt_irrefl k (same ▸ first)
    rw [set, if_neg (String.lt_asymm first), if_neg other, ih others]
    rfl

theorem Members.foldl_set (front : Members) {ms : Members} (ordered : (front ++ ms).Ordered) :
    ms.foldl (fun ms (k, v) => ms.set k v) front = front ++ ms := by
  induction ms generalizing front with
  | nil => rw [List.append_nil]; rfl
  | cons m rest ih =>
    obtain ⟨_, _, between⟩ := List.pairwise_append.mp ordered
    obtain ⟨key, value⟩ := m
    have last : ∀ m ∈ front, m.1 < key := fun m member => between m member _ List.mem_cons_self
    have shape : front ++ (key, value) :: rest = (front ++ [(key, value)]) ++ rest := by simp
    rw [shape] at ordered ⊢
    rw [← ih _ ordered, List.foldl_cons]
    dsimp only
    rw [set_last value last]

theorem Members.ofList_ordered {ms : Members} (ordered : ms.Ordered) : ofList ms = ms :=
  foldl_set [] ordered

theorem Members.mem_foldl_set {written : List (String × Json)} {front : Members}
    {m : String × Json}
    (member : m ∈ written.foldl (fun ms (k, v) => Members.set k v ms) front) :
    m ∈ front ∨ m ∈ written := by
  induction written generalizing front with
  | nil => exact .inl member
  | cons w rest ih =>
    rcases ih member with member | member
    · rcases mem_set member with rfl | member
      · exact .inr List.mem_cons_self
      · exact .inl member
    · exact .inr (List.mem_cons_of_mem w member)

theorem Members.mem_ofList {written : List (String × Json)} {m : String × Json}
    (member : m ∈ ofList written) : m ∈ written :=
  (mem_foldl_set member).resolve_left List.not_mem_nil

theorem Members.ordered_foldl_set {written : List (String × Json)} {front : Members}
    (ordered : front.Ordered) :
    Members.Ordered (written.foldl (fun ms (k, v) => Members.set k v ms) front) := by
  induction written generalizing front with
  | nil => exact ordered
  | cons w rest ih => exact ih (ordered.set w.1 w.2)

theorem Members.ordered_ofList (written : List (String × Json)) : (ofList written).Ordered :=
  ordered_foldl_set .nil

mutual

/-- A value as readers make it: nested at most `depth` levels, numbers in range, and members in
order. -/
def Regular : Nat → Json → Prop
  | _, .null => True
  | _, .bool _ => True
  | _, .int n => Numeral.Fits n
  | _, .float x => x.Finite
  | _, .string _ => True
  | 0, .array _ => False
  | depth + 1, .array xs => RegularAll depth xs
  | 0, .object _ => False
  | depth + 1, .object ms => Members.Ordered ms ∧ RegularMembers depth ms
termination_by structural _ v => v

def RegularAll : Nat → List Json → Prop
  | _, [] => True
  | depth, x :: xs => Regular depth x ∧ RegularAll depth xs
termination_by structural _ vs => vs

def RegularMembers : Nat → List (String × Json) → Prop
  | _, [] => True
  | depth, (_, x) :: ms => Regular depth x ∧ RegularMembers depth ms
termination_by structural _ ms => ms

end

mutual

def Integral : Json → Prop
  | .null => True
  | .bool _ => True
  | .int _ => True
  | .float _ => False
  | .string _ => True
  | .array xs => IntegralAll xs
  | .object ms => IntegralMembers ms
termination_by structural v => v

def IntegralAll : List Json → Prop
  | [] => True
  | x :: xs => Integral x ∧ IntegralAll xs
termination_by structural vs => vs

def IntegralMembers : List (String × Json) → Prop
  | [] => True
  | (_, x) :: ms => Integral x ∧ IntegralMembers ms
termination_by structural ms => ms

end

theorem regularMembers_iff {depth : Nat} {ms : List (String × Json)} :
    RegularMembers depth ms ↔ ∀ m ∈ ms, Regular depth m.2 := by
  induction ms with
  | nil => simp [RegularMembers]
  | cons m ms ih => simp [RegularMembers, ih]

theorem int?_fits {n : Numeral} {m : Int} (read : n.int? = some m) : Numeral.Fits m := by
  unfold Numeral.int? at read
  simp only [Numeral.Fits, Word.minSigned, Word.maxUnsigned]
  split at read
  · dsimp only at read
    split at read
    · split at read
      · next small =>
        cases read
        simp at small
        omega
      · cases read
    · split at read
      · next small =>
        cases read
        simp at small
        omega
      · cases read
  · cases read

mutual

theorem value?_regular {depth : Nat} (f : Form) {v : Json} (read : f.value? depth = some v) :
    Regular depth v := by
  match f with
  | .null | .bool _ =>
    simp only [Form.value?, Option.some.injEq] at read
    cases read
    exact trivial
  | .number n =>
    simp only [Form.value?, Numeral.json?] at read
    split at read
    · next m whole =>
      cases read
      exact int?_fits whole
    · obtain ⟨x, digits, rfl⟩ := Option.map_eq_some_iff.mp read
      exact Decimal.ofDigits?_finite digits
  | .string pieces =>
    obtain ⟨s, _, rfl⟩ := Option.map_eq_some_iff.mp read
    exact trivial
  | .array xs =>
    cases depth with
    | zero => cases read
    | succ depth =>
      obtain ⟨vs, each, rfl⟩ := Option.map_eq_some_iff.mp read
      exact values?_regular xs each
  | .object ms =>
    cases depth with
    | zero => cases read
    | succ depth =>
      obtain ⟨vs, each, rfl⟩ := Option.map_eq_some_iff.mp read
      refine ⟨Members.ordered_ofList vs, regularMembers_iff.mpr fun m member => ?_⟩
      exact memberValues?_regular ms each m (Members.mem_ofList member)

theorem values?_regular {depth : Nat} (fs : List Form) {vs : List Json}
    (read : Form.values? depth fs = some vs) : RegularAll depth vs := by
  match fs with
  | [] =>
    cases read
    exact trivial
  | x :: xs =>
    simp only [Form.values?] at read
    split at read
    · next v vs first rest =>
      cases read
      exact ⟨value?_regular x first, values?_regular xs rest⟩
    · cases read

theorem memberValues?_regular {depth : Nat} (fs : List (List Piece × Form))
    {ms : List (String × Json)} (read : Form.memberValues? depth fs = some ms) :
    ∀ m ∈ ms, Regular depth m.2 := by
  match fs with
  | [] =>
    cases read
    exact fun m member => absurd member List.not_mem_nil
  | (key, x) :: rest =>
    simp only [Form.memberValues?] at read
    split at read
    · next k v vs _ first others =>
      cases read
      exact List.forall_mem_cons.mpr ⟨value?_regular x first, memberValues?_regular rest others⟩
    · cases read

end

end RecordLedger.Json
