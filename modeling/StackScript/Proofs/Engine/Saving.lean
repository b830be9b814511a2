import StackScript.Proofs.Image.Faults
import StackScript.Proofs.Image.RoundTrip
import StackScript.Proofs.Lowering.Nesting
import StackScript.Proofs.Lowering.Output
import StackScript.Proofs.Lowering.Pools

/-!
# Which programs have an image

A compiled program holds nothing that an image could not hold; only the depth of an image is
limited. A function at level `n` is read with `n - 1` functions around it, and its constants with
one more, so the limit is hit exactly by a constant of a function at the last level.
-/

namespace StackScript

/-- All lengths in a chunk, and in the chunks of its functions, fit into a word of an image. -/
def Chunk.Sized (root : Chunk Constant) : Prop :=
  ∀ c, root.Contains c → AreWords c.lengths ∧ ∀ k ∈ c.constants, AreWords k.node.lengths

/-- All lengths fit, in functions that are nested at most `n` deep. -/
def Chunk.isSizedTo : Nat → Chunk Constant → Bool
  | 0, _ => false
  | n + 1, c => c.lengths.all (· < 2 ^ 32) && c.constants.all fun k =>
    k.node.lengths.all (· < 2 ^ 32) && match k with
    | ⟨.function f⟩ => f.chunk.isSizedTo n
    | _ => true

theorem Chunk.sized_of_isSizedTo {n : Nat} {root : Chunk Constant} (h : root.isSizedTo n = true) :
    root.Sized := by
  induction n generalizing root with
  | zero => cases h
  | succ n ih =>
    simp only [isSizedTo, Bool.and_eq_true, List.all_eq_true, decide_eq_true_eq] at h
    intro c hc
    rcases hc.cases_head with rfl | ⟨f, hf, hc⟩
    · exact ⟨h.1, fun k hk => (h.2 k hk).1⟩
    · exact ih (h.2 _ hf).2 c hc

/-- A constant is written behind `depth` others at most, but some constant stands deeper. -/
def Overflows (depth : Nat) (ks : List Constant) : Prop :=
  (depth = 0 ∧ ks ≠ []) ∨ ∃ f, NestedIn ks depth f ∧ f.chunk.constants ≠ []

theorem overflows_succ {depth : Nat} {ks : List Constant} :
    Overflows (depth + 1) ks ↔ ∃ f, ⟨.function f⟩ ∈ ks ∧ Overflows depth f.chunk.constants := by
  constructor
  · rintro (⟨h, -⟩ | ⟨g, hg, hne⟩)
    · cases h
    · cases hg with
      | here hf => exact ⟨g, hf, .inl ⟨rfl, hne⟩⟩
      | inside hf hg => exact ⟨_, hf, .inr ⟨g, hg, hne⟩⟩
  · rintro ⟨f, hf, ⟨rfl, hne⟩ | ⟨g, hg, hne⟩⟩
    · exact .inr ⟨f, .here hf, hne⟩
    · exact .inr ⟨g, .inside hf hg, hne⟩

theorem findSome?_of_either {α β : Type} {f : α → Option β} {b : β} {l : List α}
    (h : ∀ a ∈ l, f a = none ∨ f a = some b) :
    (l.findSome? f = none ∨ l.findSome? f = some b) ∧
      (l.findSome? f = some b ↔ ∃ a ∈ l, f a = some b) := by
  induction l with
  | nil => simp
  | cons a l ih =>
    rw [List.forall_mem_cons] at h
    obtain ⟨hcases, hiff⟩ := ih h.2
    rcases h.1 with ha | ha
    · simp only [List.findSome?_cons, ha, List.mem_cons, exists_eq_or_imp, reduceCtorEq, false_or]
      exact ⟨hcases, hiff⟩
    · simp [ha]

namespace Image.Writer

theorem fault_ordinary {P : String → Prop} {k : Constant} (hk : k.Ordinary P)
    (hl : AreWords k.node.lengths) (hm : ∀ f, k = ⟨.function f⟩ → f.chunk.IsMarked) (depth : Nat) :
    (∃ f, k = ⟨.function f⟩ ∧ (value Constant.node (depth + 1) k).fault =
        f.chunk.constants.findSome? fun a => (value Constant.node depth a).fault) ∨
      (∀ f, k ≠ ⟨.function f⟩) ∧ (value Constant.node (depth + 1) k).fault = none := by
  cases hk with
  | int n => exact .inr ⟨(by rintro _ ⟨⟩), rfl⟩
  | float x => exact .inr ⟨(by rintro _ ⟨⟩), rfl⟩
  | char c => exact .inr ⟨(by rintro _ ⟨⟩), rfl⟩
  | string s =>
    refine .inr ⟨(by rintro _ ⟨⟩), ?_⟩
    refine ((fault_behind (isStream_string s)).trans (fault_string_eq s)).trans ?_
    exact lengthFault_of_lt (hl _ (by simp [Constant.node, Node.lengths]))
  | record name fields => exact .inr ⟨(by rintro _ ⟨⟩), fault_record hl⟩
  | @function f name =>
    exact .inl ⟨f, rfl, fault_function (isStream_value Constant.node depth) (hm f rfl) hl⟩

theorem fault_constants {P : String → Prop} {root : Chunk Constant} (hsized : root.Sized)
    (hmarked : ∀ c, root.Contains c → c.IsMarked) (hk : ∀ k ∈ root.constants, k.Ordinary P)
    (depth : Nat) :
    let fault := root.constants.findSome? fun k => (value Constant.node depth k).fault
    (fault = none ∨ fault = some .tooDeep) ∧
      (fault = some .tooDeep ↔ Overflows depth root.constants) := by
  intro fault
  induction depth generalizing root with
  | zero =>
    have hall : ∀ k ∈ root.constants, (value Constant.node 0 k).fault = some .tooDeep :=
      fun _ _ => rfl
    obtain ⟨hcases, hiff⟩ := findSome?_of_either fun k hk => .inr (hall k hk)
    refine ⟨hcases, hiff.trans ?_⟩
    constructor
    · rintro ⟨k, hk, -⟩
      exact .inl ⟨rfl, List.ne_nil_of_mem hk⟩
    · rintro (⟨-, hne⟩ | ⟨f, hf, -⟩)
      · obtain ⟨k, hk⟩ := List.exists_mem_of_ne_nil _ hne
        exact ⟨k, hk, hall k hk⟩
      · cases hf
  | succ depth ih =>
    have hfunction (f : Function Constant) (hf : ⟨.function f⟩ ∈ root.constants) :=
      @ih f.chunk (fun c hc => hsized c ((Chunk.Contains.self.function hf).trans hc))
        (fun c hc => hmarked c ((Chunk.Contains.self.function hf).trans hc))
        (by
          cases hk _ hf with
          | function _ _ _ hks => exact hks)
    have hone (k : Constant) (hmem : k ∈ root.constants) :
        ((value Constant.node (depth + 1) k).fault = none ∨
          (value Constant.node (depth + 1) k).fault = some .tooDeep) ∧
        ((value Constant.node (depth + 1) k).fault = some .tooDeep ↔
          ∃ f, k = ⟨.function f⟩ ∧ Overflows depth f.chunk.constants) := by
      have hm (f : Function Constant) (hf : k = ⟨.function f⟩) : f.chunk.IsMarked := by
        subst hf
        exact hmarked _ (Chunk.Contains.self.function hmem)
      rcases fault_ordinary (hk k hmem) ((hsized root .self).2 k hmem) hm depth with
        ⟨f, rfl, hf⟩ | ⟨hne, hnone⟩
      · obtain ⟨hcases, hiff⟩ := hfunction f hmem
        rw [hf]
        refine ⟨hcases, hiff.trans ?_⟩
        simp
      · rw [hnone]
        refine ⟨.inl rfl, ?_⟩
        simp [hne]
    obtain ⟨hcases, hiff⟩ := findSome?_of_either fun k hmem => (hone k hmem).1
    refine ⟨hcases, hiff.trans ?_⟩
    rw [overflows_succ]
    constructor
    · rintro ⟨k, hmem, hfault⟩
      obtain ⟨f, rfl, hf⟩ := (hone k hmem).2.1 hfault
      exact ⟨f, hmem, hf⟩
    · rintro ⟨f, hmem, hf⟩
      exact ⟨_, hmem, (hone _ hmem).2.2 ⟨f, rfl, hf⟩⟩

end Image.Writer

mutual

theorem Constant.Ordinary.proper : {k : Constant} → k.Ordinary (· ≠ "") → k.proper = k
  | ⟨.int _⟩, _ | ⟨.float _⟩, _ | ⟨.string _⟩, _ | ⟨.char _⟩, _ => by rw [Constant.proper]
  | ⟨.record ⟨_, _, []⟩⟩, _ => by rw [Constant.proper, properClosures]
  | ⟨.function ⟨arity, ⟨_, code, constants, marks⟩⟩⟩, @Constant.Ordinary.function _ _ name rfl hname _ h => by
    have hn : properName (some name) = some name := by
      simp [properName, hname]
    rw [Constant.proper, properFunction, hn, properConstants_of_ordinary h]

theorem properConstants_of_ordinary : {ks : List Constant} → (∀ k ∈ ks, k.Ordinary (· ≠ "")) →
    properConstants ks = ks
  | [], _ => by rw [properConstants]
  | k :: ks, h => by
    rw [List.forall_mem_cons] at h
    rw [properConstants, Constant.Ordinary.proper h.1, properConstants_of_ordinary h.2]

end

theorem Image.decode_of_ordinary {chunk : Chunk Constant} {image : Array UInt8}
    (hname : chunk.name = none) (hk : ∀ k ∈ chunk.constants, k.Ordinary (· ≠ ""))
    (h : Image.encode chunk = .ok image) :
    Image.decode image.toList = .ok chunk := by
  rw [Image.decode_of_encodeWith (fun _ => Constant.proper) (fun _ => Constant.proper_eq) h]
  obtain ⟨_, code, constants, marks⟩ := chunk
  subst hname
  have hconstants : constants.map Constant.proper = constants := by
    conv_rhs => rw [← List.map_id constants]
    exact List.map_congr_left fun k hk' => (hk k hk').proper
  show Except.ok (⟨none, code, constants.map Constant.proper, marks⟩ : Chunk Constant) = _
  rw [hconstants]

theorem Program.encode_cases {program : Program} {options : Options} {chunk : Chunk Constant}
    (h : program.compile options = .ok chunk) (hsized : chunk.Sized) :
    ((∃ image, Image.encode chunk = .ok image) ∨ Image.encode chunk = .error .tooDeep) ∧
    (Image.encode chunk = .error .tooDeep ↔
      ∃ f, NestedIn chunk.constants 256 f ∧ f.chunk.constants ≠ []) := by
  have hsmall : chunk.IsSmall := fun c hc => (hsized c hc).1 _ (by simp [Chunk.lengths])
  have hmarked (c : Chunk Constant) (hc : chunk.Contains c) : c.IsMarked :=
    ((wellFormed_of_compile h hsmall).2 c hc).marked
  obtain ⟨-, hordinary⟩ := ordinary_of_compile (P := fun _ => True) (fun _ _ => trivial) h
  obtain ⟨hcases, hiff⟩ := Image.Writer.fault_constants hsized hmarked hordinary Image.maxDepth
  have hchunk := Image.Writer.fault_chunk (Image.Writer.isStream_value Constant.node Image.maxDepth)
    (hmarked chunk .self) (hsized chunk .self).1
  rw [← hchunk] at hcases hiff
  have hdeep : Image.encode chunk = .error .tooDeep ↔ Overflows Image.maxDepth chunk.constants :=
    Image.encodeWith_eq_error_iff.trans hiff
  refine ⟨?_, hdeep.trans (or_iff_right fun hzero => absurd hzero.1 (by decide))⟩
  cases he : Image.encode chunk with
  | ok image => exact .inl ⟨image, rfl⟩
  | error e =>
    have hfault := Image.encodeWith_eq_error_iff.1 he
    rw [hfault] at hcases
    rcases hcases with hnone | hsome
    · cases hnone
    · cases hsome
      exact .inr rfl

theorem NestedIn.lt_of_isSizedTo {n m : Nat} {root : Chunk Constant} {f : Function Constant}
    (h : root.isSizedTo n = true) (hf : NestedIn root.constants m f) : m < n := by
  induction n generalizing root m with
  | zero => cases h
  | succ n ih =>
    simp only [Chunk.isSizedTo, Bool.and_eq_true, List.all_eq_true] at h
    cases hf with
    | here hf =>
      have hn : 0 < n := by
        cases n with
        | zero => exact absurd (h.2 _ hf).2 Bool.false_ne_true
        | succ n => exact Nat.succ_pos n
      omega
    | inside hg hf =>
      have := ih (h.2 _ hg).2 hf
      omega

theorem Program.exists_image (program : Program) (options : Options) {n : Nat}
    (h : (program.compile options).toOption.any (·.isSizedTo n) = true) (hn : n ≤ 256) :
    ∃ chunk image, program.compile options = .ok chunk ∧ chunk.Sized ∧ Image.encode chunk = .ok image := by
  cases hc : program.compile options with
  | error messages =>
    rw [hc] at h
    cases h
  | ok chunk =>
    rw [hc] at h
    have hsized : chunk.Sized := Chunk.sized_of_isSizedTo h
    obtain ⟨⟨image, hi⟩ | herror, hdeep⟩ := encode_cases hc hsized
    · exact ⟨chunk, image, rfl, hsized, hi⟩
    · obtain ⟨f, hf, -⟩ := hdeep.1 herror
      exact absurd (NestedIn.lt_of_isSizedTo h hf) (Nat.not_lt.2 hn)

/-- A compiled program has an image unless its functions are nested too deeply: unless a function at
level 256 has a constant. Levels are those of the functions in the text. Where no function or method has
an empty name, the image is read as the program itself. -/
theorem Program.encode_compiled {program : Program} {options : Options} {chunk : Chunk Constant}
    (h : program.compile options = .ok chunk) (hsized : chunk.Sized) :
    (∀ n name, (∃ f, NestedIn chunk.constants n f ∧ f.chunk.name = some name) ↔
      (n, name) ∈ program.functionLevels) ∧
    ((∃ image, Image.encode chunk = .ok image) ∨ Image.encode chunk = .error .tooDeep) ∧
    (Image.encode chunk = .error .tooDeep ↔
      ∃ f, NestedIn chunk.constants 256 f ∧ f.chunk.constants ≠ []) ∧
    (∀ image, Image.encode chunk = .ok image → "" ∉ program.functionNames →
      Image.decode image.toList = .ok chunk) := by
  obtain ⟨hcases, hdeep⟩ := encode_cases h hsized
  refine ⟨nestsName_of_compile h, hcases, hdeep, fun image hencode hnames => ?_⟩
  obtain ⟨hname, hk⟩ := ordinary_of_compile (P := (· ≠ "")) (fun name hn he => hnames (he ▸ hn)) h
  exact Image.decode_of_ordinary hname hk hencode

theorem Program.encode_compiled_capturing : ∃ chunk image, capturing.compile {} = .ok chunk ∧
    chunk.Sized ∧ Image.encode chunk = .ok image ∧ Image.decode image.toList = .ok chunk ∧
    ∃ f, NestedIn chunk.constants 2 f ∧ f.chunk.name = some "next" := by
  obtain ⟨chunk, image, h, hsized, hi⟩ := capturing.exists_image {} (n := 3) (by cbv) (by decide)
  obtain ⟨hlevels, -, -, hdecode⟩ := encode_compiled h hsized
  exact ⟨chunk, image, h, hsized, hi, hdecode image hi (by decide +kernel),
    (hlevels 2 "next").2 (by decide +kernel)⟩

end StackScript
