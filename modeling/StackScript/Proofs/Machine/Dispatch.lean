import StackScript.Host
import StackScript.Proofs.Machine.Running

/-!
# Calls of properties

A call of a property does not make the bound method that looking up the property and then calling it
would make. It comes to the same (`Machine.callProperty_eq_call`), since the receiver of the
property still is where the callee was.
-/

namespace StackScript.Machine

variable {host : Host} {m m' : Machine} {argc : Nat} {receiver v : Value} {name : String}

/-! ## Looking up -/

theorem callee_eq_ok (h : m.stack[argc]? = some v) : callee argc m = .ok v m := by
  unfold callee
  rw [h]

/-- Looking up a property changes nothing. -/
theorem property_eq (receiver : Value) (name : String) (m : Machine) :
    property receiver name m = match property? m.store receiver name with
      | some p => .ok p m
      | none => .error (.noSuchProperty name (ownerName m.store receiver)) m := by
  show (match property? m.store receiver name with
    | some p => pure p
    | none => throw (.noSuchProperty name (ownerName m.store receiver)) : Exec Property) m = _
  cases property? m.store receiver name <;> rfl

/-- The value of a property: a method is bound to the receiver. -/
def Property.value (receiver : Value) : Property → Value
  | .field v => v
  | .method f => .bound receiver f

theorem getProperty_eq (receiver : Value) (name : String) (m : Machine) :
    getProperty receiver name m = match property? m.store receiver name with
      | some p => .ok (p.value receiver) m
      | none => .error (.noSuchProperty name (ownerName m.store receiver)) m := by
  have hproperty := property_eq receiver name m
  unfold getProperty
  cases hp : property? m.store receiver name with
  | none =>
    rw [hp] at hproperty
    rw [bind_error hproperty]
  | some p =>
    rw [hp] at hproperty
    rw [bind_ok hproperty]
    cases p <;> rfl

theorem property?_instanceOf {s : Store} {ref : InstanceRef} {i : Instance}
    (h : s.instance? ref = some i) :
    property? s (.instanceOf ref) name =
      ((i.get? name).map .field).or ((i.record.body.method? name).map .method) := by
  simp only [property?, h, Option.bind_some]
  cases i.get? name <;> rfl

theorem property?_eq_none {s : Store}
    (h : ∀ ref i, receiver = .instanceOf ref → s.instance? ref = some i →
      i.get? name = none ∧ i.record.body.method? name = none) :
    property? s receiver name = none := by
  unfold property?
  split
  · next ref =>
    cases hi : s.instance? ref with
    | none => rfl
    | some i =>
      obtain ⟨hv, hmethod⟩ := h ref i rfl hi
      simp [hv, hmethod]
  · rfl

/-! ## Calling -/

theorem enter_eq_ok {closure : Value.Code} (h : enter closure argc m = .ok () m') :
    argc < m.stack.length ∧ m' = { m with
      stack := m.stack.drop (argc + 1)
      locals := m.locals ++ (m.stack.take (argc + 1)).reverse.toArray
      frame := {
        closure
        localsBase := m.locals.size
        stackBase := (m.stack.drop (argc + 1)).length }
      callers := m.frame :: m.callers } := by
  unfold enter at h
  obtain ⟨_, m₁, hcheck, hrest⟩ := exists_of_bind_ok h
  obtain rfl : m₁ = m := by
    unfold checkArity at hcheck
    split at hcheck
    · cases hcheck
    · cases hcheck
      rfl
  obtain ⟨m₂, m₃, hget, hlimit⟩ := exists_of_bind_ok hrest
  cases hget
  split at hlimit
  · cases hlimit
  · obtain ⟨arguments, m₄, hpop, hframe⟩ := exists_of_bind_ok hlimit
    unfold popMany at hpop
    split at hpop
    · next hle =>
      cases hpop
      cases hframe
      exact ⟨hle, rfl⟩
    · cases hpop

/-- The callee becomes the first local of the call. -/
theorem first_local_of_enter {closure : Value.Code} (hv : m.stack[argc]? = some v)
    (h : enter closure argc m = .ok () m') :
    m'.frame.closure = closure ∧ m'.locals[m'.frame.localsBase]? = some v := by
  obtain ⟨hlt, rfl⟩ := enter_eq_ok h
  refine ⟨rfl, ?_⟩
  have htake : (m.stack.take (argc + 1)).reverse = v :: (m.stack.take argc).reverse := by
    rw [List.take_add_one, hv]
    simp
  show (m.locals ++ (m.stack.take (argc + 1)).reverse.toArray)[m.locals.size]? = some v
  rw [htake, Array.getElem?_append_right (Nat.le_refl _), Nat.sub_self]
  rfl

theorem call_bound {method : Value.Method} (h : m.stack[argc]? = some (.bound receiver method)) :
    call host argc m = enter method.body argc { m with stack := m.stack.set argc receiver } := by
  unfold call
  rw [bind_ok (callee_eq_ok h)]
  rfl

theorem call_bound_of_receiver {method : Value.Method} (h : m.stack[argc]? = some receiver) :
    call host argc { m with stack := m.stack.set argc (.bound receiver method) } =
      enter method.body argc m := by
  obtain ⟨hlt, hreceiver⟩ := List.getElem?_eq_some_iff.1 h
  have hcallee : (m.stack.set argc (.bound receiver method))[argc]? =
      some (.bound receiver method) := List.getElem?_set_self hlt
  have hback : (m.stack.set argc (.bound receiver method)).set argc receiver = m.stack := by
    rw [List.set_set, ← hreceiver, List.set_getElem_self]
  have hcall := @call_bound host
    { m with stack := m.stack.set argc (.bound receiver method) } argc receiver method hcallee
  rw [hcall, hback]

theorem callProperty_eq (h : m.stack[argc]? = some receiver) :
    callProperty host name argc m = match property? m.store receiver name with
      | some (.field v) => call host argc { m with stack := m.stack.set argc v }
      | some (.method method) => enter method.body argc m
      | none => .error (.noSuchProperty name (ownerName m.store receiver)) m := by
  have hproperty := property_eq receiver name m
  unfold callProperty
  rw [bind_ok (callee_eq_ok h)]
  cases hp : property? m.store receiver name with
  | none =>
    rw [hp] at hproperty
    rw [bind_error hproperty]
  | some p =>
    rw [hp] at hproperty
    rw [bind_ok hproperty]
    cases p <;> rfl

/-- To call a property of the value below the arguments is to put the property in its place and to call
it: the machines behind it, and the faults, are the same. A field wins over a method; a method has the
receiver as its first local; and without a property of that name the machine stays as it is. -/
theorem callProperty_eq_call (host : Host) (name : String) (h : argc < m.stack.length) :
    let receiver := m.stack[argc]
    callProperty host name argc m = (do
      let v ← getProperty receiver name
      replace argc v
      call host argc) m ∧
    (∀ ref i v, receiver = .instanceOf ref → m.store.instance? ref = some i → i.get? name = some v →
      callProperty host name argc m = call host argc { m with stack := m.stack.set argc v }) ∧
    (∀ ref i method, receiver = .instanceOf ref → m.store.instance? ref = some i →
      i.get? name = none → i.record.body.method? name = some method →
      callProperty host name argc m = enter method.body argc m ∧
        ∀ m', callProperty host name argc m = .ok () m' → m'.frame.closure = method.body ∧
          m'.locals[m'.frame.localsBase]? = some receiver) ∧
    ((∀ ref i, receiver = .instanceOf ref → m.store.instance? ref = some i →
        i.get? name = none ∧ i.record.body.method? name = none) →
      callProperty host name argc m =
          .error (.noSuchProperty name (ownerName m.store receiver)) m ∧
        getProperty receiver name m =
          .error (.noSuchProperty name (ownerName m.store receiver)) m) := by
  intro receiver
  have hreceiver : m.stack[argc]? = some receiver := List.getElem?_eq_getElem h
  have hcall := @callProperty_eq host m argc receiver name hreceiver
  have hget := getProperty_eq receiver name m
  refine ⟨?_, ?_, ?_, ?_⟩
  · cases hp : property? m.store receiver name with
    | none =>
      rw [hp] at hcall hget
      rw [hcall, bind_error hget]
    | some p =>
      rw [hp] at hcall hget
      rw [hcall, bind_ok hget]
      cases p with
      | field v => rfl
      | method method => exact (call_bound_of_receiver hreceiver).symm
  · intro ref i v href hi hv
    rw [href, property?_instanceOf hi, hv] at hcall
    exact hcall
  · intro ref i method href hi hv hmethod
    have hp : property? m.store receiver name = some (.method method) := by
      rw [href, property?_instanceOf hi, hv, hmethod]
      rfl
    rw [hp] at hcall
    rw [hcall]
    exact ⟨rfl, fun m' hm' => first_local_of_enter hreceiver hm'⟩
  · intro hnone
    rw [property?_eq_none hnone] at hcall hget
    exact ⟨hcall, hget⟩

/-- A machine with a point and one argument on the stack. Its record has the field `x` and the method
`shift` with one parameter. -/
def withPoint : Machine where
  store := { instances := #[⟨[.int 5],
    ⟨0, ⟨"Point", ["x"], [⟨1, ⟨⟨1, { name := some "shift" }⟩, []⟩⟩]⟩⟩⟩] }
  stack := [.int 3, .instanceOf ⟨0⟩]
  frame := { closure := ⟨⟨0, { name := none }⟩, []⟩ }

theorem callProperty_eq_call_withPoint : 1 < withPoint.stack.length ∧
    (callProperty (Services.host {}) "shift" 1 withPoint = (do
      let v ← getProperty (.instanceOf ⟨0⟩) "shift"
      replace 1 v
      call (Services.host {}) 1) withPoint) ∧
    (∃ m, callProperty (Services.host {}) "shift" 1 withPoint = .ok () m ∧
      m.locals[m.frame.localsBase]? = some (.instanceOf ⟨0⟩)) ∧
    callProperty (Services.host {}) "y" 1 withPoint =
      .error (.noSuchProperty "y" "Point") withPoint := by
  have hlt : 1 < withPoint.stack.length := Nat.lt_succ_self 1
  obtain ⟨hcall, -, hmethod, -⟩ := callProperty_eq_call (Services.host {}) "shift" hlt
  obtain ⟨-, -, -, hnone⟩ := callProperty_eq_call (Services.host {}) "y" hlt
  refine ⟨hlt, hcall, ⟨_, rfl, ?_⟩, ?_⟩
  · exact ((hmethod ⟨0⟩ _ _ rfl rfl rfl rfl).2 _ rfl).2
  · refine (hnone fun ref i href hi => ?_).1
    cases href
    cases hi
    exact ⟨rfl, rfl⟩

end StackScript.Machine
