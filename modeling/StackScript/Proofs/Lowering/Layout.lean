import StackScript.Proofs.Lowering.Linking

/-!
# The layout of branches and loops

Where the parts of a conditional statement or of a loop stand, and how far the jumps between them
go. A jump has five bytes and an instruction without operands one. The head of a loop stands five
bytes behind its beginning.
-/

namespace StackScript.Lowering

open Fragment

variable {f g k r t : Fragment}

theorem size_pop (span : Span) : (pop span).size = 1 := rfl

theorem size_define (b : Option Binding) (span : Span) : (define b span).size = 1 := by
  rcases b with _ | (_ | _ | _) <;> rfl

theorem size_jump (b : Branch) (distance : Nat) (span : Span) :
    (Piece.jump b distance span).size = 5 := rfl

section

variable {code : Code} {o o' off off' : Nat} {span : Span}

theorem placed_cast (h : Placed code o f) (ho : o = o') : Placed code o' f := by
  rwa [← ho]

theorem linkFrom_cast (h : Placed code o (linkFrom off f)) (ho : o = o') (hoff : off = off') :
    Placed code o' (linkFrom off' f) := by
  rwa [← ho, ← hoff]

/-- The first piece of linked code, if it is a jump. -/
theorem placed_jump {b : Branch} {d d' : Nat}
    (h : Placed code o (linkFrom off (.jump b d span :: f))) (ho : o = o') (hd : d = d') :
    Placed code o' [.jump b d' span] := by
  subst ho hd
  exact Placed.left (f := [Piece.jump b d span]) h

theorem placed_pop (h : Placed code o (linkFrom off (pop span ++ f))) (ho : o = o') :
    Placed code o' (pop span) := by
  subst ho
  exact (closed_emit _ _).placed h.linkLeft

/-! ## Conditional statements -/

/-- The code of a conditional statement from that of its parts. -/
def condCode (t k a : Fragment) (span : Span) : Fragment :=
  t ++ skip .ifFalse (pop span ++ k ++ [.jump .always (pop span ++ a).size span]) span ++
    (pop span ++ a) ++ [.landing]

theorem size_condCode (t k a : Fragment) (span : Span) :
    (condCode t k a span).size = t.size + k.size + a.size + 12 := by
  simp only [condCode, skip, size_append, size_cons, size_nil, size_pop, size_jump]
  show t.size + (5 + (1 + k.size + (5 + 0))) + (1 + a.size) + (0 + 0) = _
  omega

/-- The parts of a conditional statement in their places. -/
structure CondPlaced (code : Code) (o off : Nat) (t k a : Fragment) (span : Span) : Prop where
  test : Placed code o t
  jump : Placed code (o + t.size) [.jump .ifFalse (k.size + 6) span]
  dropThen : Placed code (o + t.size + 5) (pop span)
  consequent : Placed code (o + t.size + 6) (linkFrom (off + (t.size + 6)) k)
  jumpOver : Placed code (o + t.size + 6 + k.size) [.jump .always (a.size + 1) span]
  dropElse : Placed code (o + t.size + k.size + 11) (pop span)
  alternate : Placed code (o + t.size + k.size + 12) (linkFrom (off + (t.size + k.size + 12)) a)

theorem condPlaced {a : Fragment} (ht : t.Closed)
    (h : Placed code o (linkFrom off (condCode t k a span))) :
    CondPlaced code o off t k a span := by
  have hskip := h.linkLeft.linkLeft.linkRight
  have hthen := hskip.linkTail
  have helse := h.linkLeft.linkRight
  have hs : (t ++ skip .ifFalse (pop span ++ k ++ [Piece.jump .always (pop span ++ a).size span])
      span).size = t.size + k.size + 11 := by
    simp only [skip, size_append, size_cons, size_nil, size_pop, size_jump]
    omega
  rw [hs] at helse
  refine ⟨ht.placed h.linkLeft.linkLeft.linkLeft, placed_jump hskip rfl ?_,
    placed_pop hthen.linkLeft rfl, linkFrom_cast hthen.linkLeft.linkRight rfl ?_,
    placed_jump hthen.linkRight ?_ ?_, placed_pop helse ?_, linkFrom_cast helse.linkRight ?_ ?_⟩
  all_goals
    try simp only [size_append, size_cons, size_nil, size_pop, size_jump]
    omega

/-! ## Loops -/

theorem loopCode_eq (first round : Fragment) (span : Span) :
    loopCode first round span = [.jump .always (6 + first.size) span] ++
      ([.jump .ifFalse (1 + first.size + round.size) span] ++ (pop span ++ (linkFrom 6 first ++
        (linkFrom (6 + first.size) round ++ pop span)))) := by
  have hsize : size (.jump .ifFalse (1 + first.size + round.size) span :: (pop span ++ first)) =
      6 + first.size := by
    simp only [size_cons, size_append, size_pop, size_jump]
    omega
  show .jump .always (size (.jump .ifFalse (1 + first.size + round.size) span ::
    (pop span ++ first))) span :: linkFrom 0 (.jump .ifFalse (1 + first.size + round.size) span ::
      (pop span ++ first) ++ round) ++ pop span = _
  rw [linkFrom_append, hsize, Nat.zero_add]
  show _ :: (_ :: (_ :: linkFrom 6 first) ++ linkFrom (6 + first.size) round) ++ pop span = _
  simp [pop, emit]

theorem size_loopCode (first round : Fragment) (span : Span) :
    (loopCode first round span).size = first.size + round.size + 12 := by
  rw [loopCode_eq]
  simp only [size_append, size_linkFrom, size_cons, size_nil, size_pop, size_jump]
  omega

/-- The parts of a loop in their places. -/
structure LoopPlaced (code : Code) (o : Nat) (f r : Fragment) (span : Span) : Prop where
  start : Placed code o [.jump .always (6 + f.size) span]
  head : Placed code (o + 5) [.jump .ifFalse (1 + f.size + r.size) span]
  drop : Placed code (o + 10) (pop span)
  first : Placed code (o + 11) (linkFrom 6 f)
  round : Placed code (o + 11 + f.size) (linkFrom (6 + f.size) r)
  out : Placed code (o + 11 + f.size + r.size) (pop span)

theorem loopPlaced (h : Placed code o (loopCode f r span)) : LoopPlaced code o f r span := by
  rw [loopCode_eq] at h
  have h₁ : Placed code (o + 5) _ := h.right
  have h₂ : Placed code (o + 10) _ := h₁.right
  have h₃ : Placed code (o + 11) _ := h₂.right
  have h₄ := h₃.right
  have h₅ := h₄.right
  rw [size_linkFrom] at h₄ h₅
  rw [size_linkFrom] at h₅
  exact ⟨h.left, h₁.left, h₂.left, h₃.left, h₄.left, h₅⟩

/-- The round of a loop with a condition. -/
def whileRound (t k : Fragment) (span : Span) : Fragment :=
  again (t ++ .jump .ifFalse ((pop span ++ k).size + Piece.jumpSize) span :: (pop span ++ k)) span

theorem size_whileRound (t k : Fragment) (span : Span) :
    (whileRound t k span).size = t.size + k.size + 11 := by
  simp only [whileRound, again, size_append, size_cons, size_nil, size_pop, size_jump]
  omega

/-- The parts of the round of a loop with a condition in their places. -/
structure WhilePlaced (code : Code) (o off : Nat) (t k : Fragment) (span : Span) : Prop where
  test : Placed code o t
  jump : Placed code (o + t.size) [.jump .ifFalse (k.size + 6) span]
  drop : Placed code (o + t.size + 5) (pop span)
  body : Placed code (o + t.size + 6) (linkFrom (off + (t.size + 6)) k)
  back : Placed code (o + t.size + 6 + k.size) [.jump .back (t.size + k.size + 11) span]

theorem whilePlaced (ht : t.Closed) (h : Placed code o (linkFrom off (whileRound t k span))) :
    WhilePlaced code o off t k span := by
  have hjump := h.linkLeft.linkRight
  have hbody := hjump.linkTail
  refine ⟨ht.placed h.linkLeft.linkLeft, placed_jump hjump rfl ?_, placed_pop hbody rfl,
    linkFrom_cast hbody.linkRight rfl ?_, placed_jump h.linkRight ?_ ?_⟩
  all_goals
    try simp only [size_append, size_cons, size_pop, size_jump, Piece.jumpSize, wordWidth]
    omega

theorem againPlaced (h : Placed code o (linkFrom off (again k span))) :
    Placed code o (linkFrom off k) ∧ Placed code (o + k.size) [.jump .back (k.size + 5) span] :=
  ⟨h.linkLeft, placed_jump h.linkRight rfl rfl⟩

/-! ## Loops over a range -/

/-- The round of a loop over a range: the variable is declared as `b`, and `r` drops it. -/
def forInRound (b : Option Binding) (k r : Fragment) (span : Span) : Fragment :=
  let body := emit ⟨.getNext, ()⟩ span ++ define b span ++ k ++ r
  let round : Fragment := .jump .ifDone (body.size + Piece.jumpSize + (pop span).size) span :: body
  round ++ [.jump .back ((emit ⟨.advance, ()⟩ span).size + round.size + Piece.jumpSize) span]

theorem size_forInRound (b : Option Binding) (k r : Fragment) (span : Span) :
    (forInRound b k r span).size = k.size + r.size + 12 := by
  simp only [forInRound, size_append, size_cons, size_nil, size_jump, size_define]
  show 5 + (1 + 1 + k.size + r.size) + (5 + 0) = _
  omega

/-- The parts of the round of a loop over a range in their places. -/
structure ForInPlaced (code : Code) (o off : Nat) (b : Option Binding) (k r : Fragment)
    (span : Span) : Prop where
  jump : Placed code o [.jump .ifDone (k.size + r.size + 8) span]
  next : Placed code (o + 5) (emit ⟨.getNext, ()⟩ span)
  define : Placed code (o + 6) (define b span)
  body : Placed code (o + 7) (linkFrom (off + 7) k)
  released : Placed code (o + 7 + k.size) r
  back : Placed code (o + 7 + k.size + r.size) [.jump .back (k.size + r.size + 13) span]

theorem forInPlaced {b : Option Binding} (hr : r.Closed)
    (h : Placed code o (linkFrom off (forInRound b k r span))) :
    ForInPlaced code o off b k r span := by
  have hg : (emit ⟨.getNext, ()⟩ span).size = 1 := rfl
  have ha : (emit ⟨.advance, ()⟩ span).size = 1 := rfl
  have hbody := h.linkLeft.linkTail
  refine ⟨placed_jump h.linkLeft rfl ?_,
    placed_cast ((closed_emit _ _).placed hbody.linkLeft.linkLeft.linkLeft) ?_,
    placed_cast ((closed_define b span).placed hbody.linkLeft.linkLeft.linkRight) ?_,
    linkFrom_cast hbody.linkLeft.linkRight ?_ ?_, placed_cast (hr.placed hbody.linkRight) ?_,
    placed_jump h.linkRight ?_ ?_⟩
  all_goals
    try simp only [size_append, size_cons, size_pop, size_jump, size_define, Piece.jumpSize,
      wordWidth, hg, ha]
    try omega

/-! ## Loops with a variable -/

/-- A turn of a loop with a variable: the variable in the slot `outer` is copied into a new one in
the slot `inner`, and back behind the body; `r` drops the copy. -/
def forTurn (outer inner : UInt32) (k r : Fragment) (span : Span) : Fragment :=
  emit ⟨.getLocal, outer⟩ span ++ emit ⟨.defLocal, ()⟩ span ++ k ++
    emit ⟨.getLocal, inner⟩ span ++ r ++ emit ⟨.setLocal, outer⟩ span ++ pop span ++
    emit ⟨.pushTrue, ()⟩ span

theorem size_forTurn (outer inner : UInt32) (k r : Fragment) (span : Span) :
    (forTurn outer inner k r span).size = k.size + r.size + 18 := by
  simp only [forTurn, size_append, size_pop]
  show 5 + 1 + k.size + 5 + r.size + 5 + 1 + 1 = _
  omega

/-- The parts of a turn in their places. -/
structure TurnPlaced (code : Code) (o off : Nat) (outer inner : UInt32) (k r : Fragment)
    (span : Span) : Prop where
  copy : Placed code o (emit ⟨.getLocal, outer⟩ span)
  define : Placed code (o + 5) (emit ⟨.defLocal, ()⟩ span)
  body : Placed code (o + 6) (linkFrom (off + 6) k)
  read : Placed code (o + 6 + k.size) (emit ⟨.getLocal, inner⟩ span)
  released : Placed code (o + 11 + k.size) r
  write : Placed code (o + 11 + k.size + r.size) (emit ⟨.setLocal, outer⟩ span)
  drop : Placed code (o + 16 + k.size + r.size) (pop span)
  again : Placed code (o + 17 + k.size + r.size) (emit ⟨.pushTrue, ()⟩ span)

theorem turnPlaced {outer inner : UInt32} (hr : r.Closed)
    (h : Placed code o (linkFrom off (forTurn outer inner k r span))) :
    TurnPlaced code o off outer inner k r span := by
  have hg (x : UInt32) : (emit ⟨.getLocal, x⟩ span).size = 5 := rfl
  have hs : (emit ⟨.setLocal, outer⟩ span).size = 5 := rfl
  have hd : (emit ⟨.defLocal, ()⟩ span).size = 1 := rfl
  have h₁ := h.linkLeft.linkLeft
  have h₂ := h₁.linkLeft.linkLeft.linkLeft
  refine ⟨(closed_emit _ _).placed h₂.linkLeft.linkLeft,
    placed_cast ((closed_emit _ _).placed h₂.linkLeft.linkRight) ?_,
    linkFrom_cast h₂.linkRight ?_ ?_,
    placed_cast ((closed_emit _ _).placed h₁.linkLeft.linkLeft.linkRight) ?_,
    placed_cast (hr.placed h₁.linkLeft.linkRight) ?_,
    placed_cast ((closed_emit _ _).placed h₁.linkRight) ?_,
    placed_cast ((closed_emit _ _).placed h.linkLeft.linkRight) ?_,
    placed_cast ((closed_emit _ _).placed h.linkRight) ?_⟩
  all_goals
    simp only [size_append, size_pop, hg, hs, hd]
    try omega

/-- A turn behind its condition, if it has one. -/
def forTest (test : Option Fragment) (turn : Fragment) (span : Span) : Fragment :=
  match test with
  | none => turn
  | some test =>
    test ++ .jump .ifFalse ((pop span).size + turn.size + Piece.jumpSize) span :: pop span ++ turn

/-- The code between two rounds. -/
def forUpdate (update : Option Fragment) (span : Span) : Fragment :=
  match update with
  | none => []
  | some update => update ++ pop span

/-- The parts of a condition and a turn in their places. -/
structure TestPlaced (code : Code) (o off : Nat) (t turn : Fragment) (span : Span) : Prop where
  test : Placed code o t
  jump : Placed code (o + t.size) [.jump .ifFalse (turn.size + 6) span]
  drop : Placed code (o + t.size + 5) (pop span)
  turn : Placed code (o + t.size + 6) (linkFrom (off + (t.size + 6)) turn)

theorem size_forTest_some (t turn : Fragment) (span : Span) :
    (forTest (some t) turn span).size = t.size + turn.size + 6 := by
  simp only [forTest, size_append, size_cons, size_pop, size_jump]
  omega

/-- The size of the code of a condition in front of a turn of a loop. -/
def testSize : Option Fragment → Nat
  | none => 0
  | some t => t.size + 6

theorem size_forTest (test : Option Fragment) (turn : Fragment) (span : Span) :
    (forTest test turn span).size = testSize test + turn.size := by
  cases test with
  | none => exact (Nat.zero_add _).symm
  | some t =>
    rw [size_forTest_some, testSize]
    omega

theorem testPlaced {turn : Fragment} (ht : t.Closed)
    (h : Placed code o (linkFrom off (forTest (some t) turn span))) :
    TestPlaced code o off t turn span := by
  have hjump := h.linkLeft.linkRight
  refine ⟨ht.placed h.linkLeft.linkLeft, placed_jump hjump rfl ?_,
    (closed_emit _ _).placed hjump.linkTail, linkFrom_cast h.linkRight ?_ ?_⟩
  all_goals
    simp only [size_append, size_cons, size_pop, size_jump, Piece.jumpSize, wordWidth]
    try omega

end

/-! ## Ends of code -/

theorem endsInReturn_append (hg : g ≠ []) : (f ++ g).endsInReturn = g.endsInReturn := by
  unfold Fragment.endsInReturn
  rw [List.getLast?_append_of_ne_nil _ hg]

theorem endsInReturn_append_pop (f : Fragment) (span : Span) :
    (f ++ pop span).endsInReturn = false :=
  endsInReturn_append (List.cons_ne_nil _ _)

theorem endsInReturn_append_loopCode (f first round : Fragment) (span : Span) :
    (f ++ loopCode first round span).endsInReturn = false := by
  have hne : loopCode first round span ≠ [] := List.cons_ne_nil _ _
  rw [endsInReturn_append hne]
  exact endsInReturn_append_pop _ span

theorem endsInReturn_append_of (hf : f.endsInReturn = false) (hg : g.endsInReturn = false) :
    (f ++ g).endsInReturn = false := by
  by_cases hn : g = []
  · rwa [hn, List.append_nil]
  · rwa [endsInReturn_append hn]

theorem endsInReturn_releaseAfter (run : Nat) (span : Span) (ls : List Local) :
    (releaseAfter run span ls).endsInReturn = false :=
  releaseAfter_induction (P := (endsInReturn · = false)) rfl endsInReturn_append_of rfl (fun _ => rfl) rfl
    run ls

theorem endsInReturn_append_release (hf : f.endsInReturn = false) {run : Nat} {span : Span}
    {ls : List Local} : (f ++ releaseAfter run span ls).endsInReturn = false :=
  endsInReturn_append_of hf (endsInReturn_releaseAfter run span ls)

end StackScript.Lowering
