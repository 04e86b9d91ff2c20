/-
  DotCom.Proofs.Renaming — names mean nothing to the image. Two programs of one shape, whose functions
  correspond one to one and in each function its variables, are lowered to the same bytes or are
  refused for the same kind of reason. Return types and parameters do not matter, and of the type of a
  variable it matters only whether it has a size.

  - `Comparison.renaming`: the two runs.
  - `Program.compile_renamed`: the images, or the kinds of errors.
-/

import DotCom.Proofs.Lowering.Pairs

namespace DotCom

/-- Failures of the same kind: two crashes, or two errors of the same variant. -/
def Failure.SameKind : Failure → Failure → Prop
  | .rejected e, .rejected e' => e.ctorIdx = e'.ctorIdx
  | .crashed, .crashed => True
  | _, _ => False

theorem Failure.SameKind.refl : (f : Failure) → f.SameKind f
  | .rejected _ => rfl
  | .crashed => trivial

/-- The same image, and the same functions under names that correspond. -/
def Comparison.renaming {F : String → String → Prop} (hF : OneToOne F) (hp : F puts puts) : Comparison where
  names := F
  exact := False
  fixed := True
  chains := True
  floor := 0
  below _ := True
  capacities := Eq
  images := Eq
  tables t u := Keyed F t.entries u.entries
  builtin hab := hF hab hp
  narrower := @capacity_le_of_eq
  size h := h ▸ rfl
  low _ := Nat.zero_le _
  capacity h := h ▸ rfl
  address h _ := h ▸ rfl
  append h chunks _ _ := by rw [h, chunks.same trivial]
  overwrite h _ chunks := by rw [h, chunks.same trivial]
  lookup h hab := rel_of_eq (lookup_eq hF h hab)
  define h hab hv _ := .cons ⟨hab, hv trivial⟩ h

namespace Program

/-- A program with other names for its functions and, in each function, for its variables, with other
    return types and parameters, and with other types of variables that have a size where the old ones
    have, is compiled to the same image, or refused with an error of the same variant. -/
theorem compile_renamed {F : String → String → Prop} (hF : OneToOne F) (hp : F puts puts) {p p' : Program}
    (h : p.Renamed F p') (options : Options) {entry' : String} (he : F options.entryPoint entry') :
    (∀ image, p.compile options = .ok image → p'.compile { options with entryPoint := entry' } = .ok image) ∧
      ∀ f, p.compile options = .error f →
        ∃ f', p'.compile { options with entryPoint := entry' } = .error f' ∧ f.SameKind f' := by
  by_cases layout : options.loadBase.toNat + options.capacity ≤ segmentSize
  · have left : p.compile options = _ := compile_eq_lower layout
    have right : p'.compile { options with entryPoint := entry' } = _ := compile_eq_lower layout
    have start : (Comparison.renaming hF hp).Related .outside { image := ⟨#[], options.loadBase, options.capacity⟩ }
        { image := ⟨#[], options.loadBase, options.capacity⟩ } := ⟨rfl, .nil, trivial⟩
    have functions : (Comparison.renaming hF hp).Functions p.functions p'.functions := ⟨h, False.elim, .inl trivial⟩
    have runs : (Comparison.renaming hF hp).Steps 0 .outside .outside (p.lower options.entryPoint) (p'.lower entry') :=
      Program.paired_lower functions he False.elim
    rw [left, right]
    rcases (runs start (Nat.zero_le _)).together id with
      ⟨_, _, g, g', run, run', states, -⟩ | ⟨e, e', g, g', run, run', errors, -⟩
    · have image : g.image = g'.image := states.image
      rw [run, run', imageOf, imageOf, image]
      refine ⟨fun _ h => h, fun f h => ?_⟩
      cases h
    · rw [run, run']
      refine ⟨fun _ h => ?_, fun _ h => ?_⟩
      · cases h
      · cases h
        exact ⟨_, rfl, errors.kind⟩
  · have create : Generator.create { options with entryPoint := entry' } = Generator.create options := rfl
    obtain ⟨e, he⟩ := create_eq_error layout
    rw [compile_eq_bind, compile_eq_bind, create, he]
    refine ⟨fun _ h => ?_, fun f h => ⟨f, h, .refl f⟩⟩
    cases h

/-- The sample with its two functions under each other's names, with variables that are called like
    functions, with other types and with a parameter. -/
def disguised : Program :=
  ⟨[⟨"main", .char, [⟨.int, "x"⟩], [.declare ⟨.char, 1⟩ "n", .expr (.assign "n" (.int 3)), .ret (.ident "n")]⟩,
    ⟨"three", ⟨.char, 2⟩, [],
      [.declare .int "main", .expr (.assign "main" (.call "main" [])),
        .cond (.branch (.chain [.ident "main", .int 3] [.eq])
          [.declare ⟨.int, 3⟩ "puts", .expr (.assign "puts" (.int 4)), .expr (.call "puts" [.str "hi"])]
          (.otherwise [.ret (.int 1)])),
        .ret (.chain [.ident "main", .int 2, .ident "puts"] [.mul, .add])]⟩]⟩

theorem sample_disguised :
    (∃ F, OneToOne F ∧ F puts puts ∧ sample.Renamed F disguised ∧ F "main" "three") ∧
      ∃ image, sample.compile {} = .ok image ∧ disguised.compile { entryPoint := "three" } = .ok image := by
  -- Names correspond as they are paired in a list.
  have paired (l : List (String × String)) (h : ∀ s ∈ l, ∀ t ∈ l, (s.1 = t.1 ↔ s.2 = t.2)) :
      OneToOne fun a b => (a, b) ∈ l :=
    fun _ _ _ _ hs ht => h _ hs _ ht
  let F : String → String → Prop := fun a b => (a, b) ∈ [("puts", "puts"), ("three", "main"), ("main", "three")]
  let V : String → String → Prop := fun a b => (a, b) ∈ [("x", "n")]
  let W : String → String → Prop := fun a b => (a, b) ∈ [("n", "main"), ("y", "puts")]
  have hF : OneToOne F := paired _ (by decide)
  have hV : OneToOne V := paired _ (by decide)
  have hW : OneToOne W := paired _ (by decide)
  have x : V "x" "n" := by decide
  have n : W "n" "main" := by decide
  have y : W "y" "puts" := by decide
  have three : F "three" "main" := by decide
  have main : F "main" "three" := by decide
  have first : List.Forall₂ (Stmt.Renamed F V)
      [.declare ⟨.int, 0⟩ "x", .expr (.assign "x" (.int 3)), .ret (.ident "x")]
      [.declare ⟨.char, 1⟩ "n", .expr (.assign "n" (.int 3)), .ret (.ident "n")] :=
    .cons (.declare x rfl) (.cons (.expr (.assign x (.int 3))) (.cons (.ret (.ident x)) .nil))
  have branch : List.Forall₂ (Stmt.Renamed F W)
      [.declare ⟨.int, 0⟩ "y", .expr (.assign "y" (.int 4)), .expr (.call "puts" [.str "hi"])]
      [.declare ⟨.int, 3⟩ "puts", .expr (.assign "puts" (.int 4)), .expr (.call "puts" [.str "hi"])] :=
    .cons (.declare y rfl) (.cons (.expr (.assign y (.int 4)))
      (.cons (.expr (.call (by decide) (.cons (.str "hi") .nil))) .nil))
  have guard : Expr.Renamed F W (.chain [.ident "n", .int 3] [.eq]) (.chain [.ident "main", .int 3] [.eq]) :=
    .chain _ (.cons (.ident n) (.cons (.int 3) .nil))
  have last : Expr.Renamed F W (.chain [.ident "n", .int 2, .ident "y"] [.mul, .add])
      (.chain [.ident "main", .int 2, .ident "puts"] [.mul, .add]) :=
    .chain _ (.cons (.ident n) (.cons (.int 2) (.cons (.ident y) .nil)))
  have renamed : sample.Renamed F disguised :=
    .cons ⟨three, V, hV, first⟩
      (.cons ⟨main, W, hW, .cons (.declare n rfl) (.cons (.expr (.assign n (.call three .nil)))
      (.cons (.cond (.branch guard branch (.otherwise (.cons (.ret (.int 1)) .nil)))) (.cons (.ret last) .nil)))⟩ .nil)
  have compiled := @compile_eq_code sample {} (by decide +kernel) (by decide +kernel) (by decide +kernel)
  exact ⟨⟨F, hF, by decide, renamed, main⟩, _, compiled, (compile_renamed hF (by decide) renamed {} main).1 _ compiled⟩

end Program

end DotCom
