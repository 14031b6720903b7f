import SymbolicMachine.Proofs.Bit.Sharing

/-!
# What the bit operators build

The simplifications of the operators keep the meaning of their operands, bring
in no variables, and keep a normal form: literals do not stand below an
operator, and a negation is not negated.  On literals, one variable and its
negation they fold to one of these again.

In normal form the exclusive or forgets variables only when it folds to a
literal, and it does so only for operands with the same variables.
-/

namespace SymbolicMachine

namespace Bit

def Plain : Bit → Prop
  | .var _ => True
  | .conj .. => True
  | _ => False

def Normal : Bit → Prop
  | .literal _ => True
  | .var _ => True
  | .neg _ x => x.Plain ∧ x.Normal
  | .conj _ x _ y =>
      (x.isLiteral = false ∧ x.Normal) ∧ y.isLiteral = false ∧ y.Normal

theorem Plain.isLiteral {x : Bit} (h : x.Plain) : x.isLiteral = false := by
  cases x <;> first | rfl | exact h.elim

def SameVars (a b : Bit) : Prop :=
  ∀ v, a.Mentions v ↔ b.Mentions v

def Over (v : Var) : Bit → Prop
  | .literal _ => True
  | .var w => w = v
  | .neg _ (.var w) => w = v
  | _ => False

structure From (operands : List Bit) (b : Bit) : Prop where
  mentions : ∀ v, b.Mentions v → ∃ x ∈ operands, x.Mentions v
  normal : (∀ x ∈ operands, x.Normal) → b.Normal
  confined : ∀ v, (∀ x ∈ operands, x.Over v) → b.Over v

namespace From

theorem literal (operands : List Bit) (value : Bool) :
    From operands (.literal value) :=
  ⟨fun _ hv => hv.elim, fun _ => trivial, fun _ _ => trivial⟩

theorem of_mem {operands : List Bit} {x : Bit} (h : x ∈ operands) :
    From operands x :=
  ⟨fun _ hv => ⟨x, h, hv⟩, fun hnormal => hnormal x h, fun _ hover => hover x h⟩

theorem single {operands : List Bit} {x b : Bit} (h : From [x] b)
    (hx : From operands x) :
    From operands b where
  mentions := by
    intro v hv
    obtain ⟨y, hy, hyv⟩ := h.mentions v hv
    rw [List.mem_singleton] at hy
    exact hx.mentions v (hy ▸ hyv)
  normal := by
    intro hnormal
    apply h.normal
    intro y hy
    rw [List.mem_singleton] at hy
    exact hy ▸ hx.normal hnormal
  confined := by
    intro v hover
    apply h.confined
    intro y hy
    rw [List.mem_singleton] at hy
    exact hy ▸ hx.confined v hover

theorem pair {operands : List Bit} {x y b : Bit} (h : From [x, y] b)
    (hx : From operands x) (hy : From operands y) : From operands b where
  mentions := by
    intro v hv
    obtain ⟨z, hz, hzv⟩ := h.mentions v hv
    rcases List.mem_pair.mp hz with rfl | rfl
    · exact hx.mentions v hzv
    · exact hy.mentions v hzv
  normal := by
    intro hnormal
    apply h.normal
    intro z hz
    rcases List.mem_pair.mp hz with rfl | rfl
    · exact hx.normal hnormal
    · exact hy.normal hnormal
  confined := by
    intro v hover
    apply h.confined
    intro z hz
    rcases List.mem_pair.mp hz with rfl | rfl
    · exact hx.confined v hover
    · exact hy.confined v hover

end From

/-- A bit made from the operands that means `meaning`. -/
structure BuiltFrom (arena : Arena) (operands : List Bit)
    (meaning : Valuation → Bool) (b : Bit) : Prop extends From operands b where
  fits : b.Fits arena
  eval_eq : ∀ valuation, b.eval valuation = meaning valuation

namespace BuiltFrom

theorem literal (arena : Arena) (operands : List Bit)
    {meaning : Valuation → Bool} {value : Bool}
    (h : ∀ valuation, value = meaning valuation) :
    BuiltFrom arena operands meaning (.literal value) :=
  ⟨.literal operands value, trivial, h⟩

theorem operand {arena : Arena} {operands : List Bit}
    {meaning : Valuation → Bool} {x : Bit} (hmem : x ∈ operands)
    (hfits : x.Fits arena)
    (h : ∀ valuation, x.eval valuation = meaning valuation) :
    BuiltFrom arena operands meaning x :=
  ⟨.of_mem hmem, hfits, h⟩

theorem mono {arena later : Arena} {operands : List Bit}
    {meaning : Valuation → Bool} {b : Bit} (hle : arena <+: later)
    (h : BuiltFrom arena operands meaning b) :
    BuiltFrom later operands meaning b :=
  ⟨h.toFrom, h.fits.mono hle, h.eval_eq⟩

end BuiltFrom

/-! ## Negation -/

theorem not_yields {arena : Arena} {x : Bit} (hx : x.Fits arena) :
    NodeM.Yields x.not arena fun later c =>
      c.BuiltFrom later [x] (fun valuation => !x.eval valuation) ∧
        c.SameVars x ∧
        (x.Normal → c.isLiteral = x.isLiteral) ∧
        (x.Plain → ∃ node, c = .neg node x) := by
  have hboxed : ∀ y : Bit, y.Fits arena → y.Plain →
      NodeM.Yields (mkNeg y) arena fun later c =>
        c.BuiltFrom later [y] (fun valuation => !y.eval valuation) ∧
          c.SameVars y ∧
          (y.Normal → c.isLiteral = y.isLiteral) ∧
          (y.Plain → ∃ node, c = .neg node y) := by
    intro y hy hplain
    apply (mkNeg_yields hy).mono
    rintro later c hle ⟨rfl, hfits⟩
    refine ⟨⟨⟨fun v hv => ⟨y, by simp, hv⟩, ?_, ?_⟩, hfits, fun _ => rfl⟩,
      fun _ => Iff.rfl, ?_, fun _ => ⟨arena.length, rfl⟩⟩
    · intro hnormal
      exact ⟨hplain, hnormal y (by simp)⟩
    · intro v hover
      have hy' := hover y (List.mem_singleton_self y)
      cases y <;> first | exact hy' | exact hplain.elim
    · intro _
      exact hplain.isLiteral.symm
  cases x with
  | literal value =>
      exact NodeM.yields_pure
        ⟨.literal _ _ fun _ => rfl, fun _ => Iff.rfl, fun _ => rfl,
          fun h => h.elim⟩
  | var v => exact hboxed _ hx trivial
  | conj nodeX x nodeY y => exact hboxed _ hx trivial
  | neg node x =>
      refine NodeM.yields_pure ⟨⟨⟨?_, ?_, ?_⟩, hx.2, ?_⟩, fun _ => Iff.rfl, ?_,
        fun h => h.elim⟩
      · intro v hv
        exact ⟨.neg node x, by simp, hv⟩
      · intro hnormal
        exact (hnormal _ (List.mem_singleton_self _)).2
      · intro v hover
        have hboxed := hover _ (List.mem_singleton_self _)
        cases x <;> first | exact hboxed | exact hboxed.elim
      · intro valuation
        simp
      · intro hnormal
        exact hnormal.1.isLiteral

/-! ## Conjunction -/

theorem and_cases (a b : Bit) :
    (a.identical b = true ∧ a.and b = pure a) ∨
    (a = .literal false ∧ a.and b = pure (.literal false)) ∨
    (a = .literal true ∧ a.and b = pure b) ∨
    (b = .literal false ∧ a.and b = pure (.literal false)) ∨
    (b = .literal true ∧ a.and b = pure a) ∨
    ((a.negates b = true ∨ b.negates a = true) ∧
      a.and b = pure (.literal false)) ∨
    (a.isLiteral = false ∧ b.isLiteral = false ∧ a.and b = mkConj a b) := by
  have hliteral : ∀ {x : Bit} {value : Bool},
      x.literal? = some value → x = .literal value := by
    intro x value hx
    cases x <;> simp_all [literal?]
  have hopen : ∀ {x : Bit}, x.literal? ≠ some false → x.literal? ≠ some true →
      x.isLiteral = false := by
    intro x hfalse htrue
    cases x with
    | literal value => cases value <;> simp_all [literal?]
    | _ => rfl
  unfold Bit.and
  split_ifs with hident hafalse hatrue hnegates hbfalse hbtrue hnegated
  · exact .inl ⟨hident, rfl⟩
  · exact .inr (.inl ⟨hliteral hafalse, rfl⟩)
  · exact .inr (.inr (.inl ⟨hliteral hatrue, rfl⟩))
  · exact .inr (.inr (.inr (.inr (.inr (.inl ⟨.inl hnegates, rfl⟩)))))
  · exact .inr (.inr (.inr (.inl ⟨hliteral hbfalse, rfl⟩)))
  · exact .inr (.inr (.inr (.inr (.inl ⟨hliteral hbtrue, rfl⟩))))
  · exact .inr (.inr (.inr (.inr (.inr (.inl ⟨.inr hnegated, rfl⟩)))))
  · exact .inr (.inr (.inr (.inr (.inr (.inr
      ⟨hopen hafalse hatrue, hopen hbfalse hbtrue, rfl⟩)))))

theorem Over.eq_of_open {v : Var} {x : Bit} (h : x.Over v)
    (hopen : x.isLiteral = false) :
    x = .var v ∨ ∃ node, x = .neg node (.var v) := by
  match x, h with
  | .literal _, _ => cases hopen
  | .var _, rfl => exact .inl rfl
  | .neg node (.var _), rfl => exact .inr ⟨node, rfl⟩

private theorem Over.and_folds {v : Var} {a b : Bit} (ha : a.Over v)
    (hb : b.Over v) :
    ∃ c, a.and b = pure c := by
  rcases and_cases a b with ⟨_, h⟩ | ⟨_, h⟩ | ⟨_, h⟩ | ⟨_, h⟩ | ⟨_, h⟩ | ⟨_,
    h⟩ |
    ⟨haopen, hbopen, _⟩
  · exact ⟨a, h⟩
  · exact ⟨.literal false, h⟩
  · exact ⟨b, h⟩
  · exact ⟨.literal false, h⟩
  · exact ⟨a, h⟩
  · exact ⟨.literal false, h⟩
  · unfold Bit.and
    rcases ha.eq_of_open haopen with rfl | ⟨node, rfl⟩ <;>
      rcases hb.eq_of_open hbopen with rfl | ⟨node', rfl⟩ <;>
      simp [identical, negates, sameOperand, sameLeaf, literal?]

theorem and_yields {arena : Arena} {a b : Bit} (ha : a.Fits arena)
    (hb : b.Fits arena) :
    NodeM.Yields (a.and b) arena fun later c =>
      c.BuiltFrom later [a, b] fun valuation => a.eval valuation &&
        b.eval valuation := by
  rcases and_cases a b with ⟨hident, h⟩ | ⟨rfl, h⟩ | ⟨rfl, h⟩ | ⟨rfl, h⟩ | ⟨rfl,
    h⟩ |
    ⟨hnegates, h⟩ | ⟨haopen, hbopen, h⟩ <;> rw [h]
  · refine NodeM.yields_pure (.operand (by simp) ha fun valuation => ?_)
    rw [← eval_eq_of_identical ha hb hident, Bool.and_self]
  · exact NodeM.yields_pure (.literal _ _ fun valuation => by simp)
  · exact NodeM.yields_pure (.operand (by simp) hb fun valuation => by simp)
  · exact NodeM.yields_pure (.literal _ _ fun valuation => by simp)
  · exact NodeM.yields_pure (.operand (by simp) ha fun valuation => by simp)
  · refine NodeM.yields_pure (.literal _ _ fun valuation => ?_)
    rcases hnegates with hnegates | hnegates
    · rw [eval_of_negates ha hb hnegates, Bool.not_and_self]
    · rw [eval_of_negates hb ha hnegates, Bool.and_not_self]
  · apply (mkConj_yields ha hb).mono
    rintro later c hle ⟨rfl, hfits⟩
    refine ⟨⟨fun v hv => ?_, fun hnormal => ?_, fun v hover => ?_⟩, hfits,
      fun _ => rfl⟩
    · rcases hv with hv | hv
      · exact ⟨a, by simp, hv⟩
      · exact ⟨b, by simp, hv⟩
    · exact ⟨⟨haopen, hnormal a (by simp)⟩, hbopen, hnormal b (by simp)⟩
    · -- A conjunction over one variable folds.
      obtain ⟨c, hfold⟩ := (hover a (by simp)).and_folds (hover b (by simp))
      have hnodes : arena.length = arena.length + 2 :=
        congrArg Prod.snd (congrFun (hfold.symm.trans h) arena.length)
      omega

/-! ## The operators made from these two -/

theorem or_yields {arena : Arena} {a b : Bit} (ha : a.Fits arena)
    (hb : b.Fits arena) :
    NodeM.Yields (a.or b) arena fun later c =>
      c.BuiltFrom later [a, b] fun valuation => a.eval valuation ||
        b.eval valuation := by
  refine (not_yields ha).bind fun arena₁ notA hle₁ ⟨hnotA, _⟩ => ?_
  refine (not_yields (hb.mono hle₁)).bind fun arena₂ notB hle₂ ⟨hnotB, _⟩ => ?_
  refine (and_yields (hnotA.fits.mono hle₂) hnotB.fits).bind
    fun arena₃ neither _ hneither => ?_
  refine (not_yields hneither.fits).mono fun later c _ ⟨hc, _⟩ =>
    ⟨?_, hc.fits, ?_⟩
  · apply hc.toFrom.single
    apply hneither.toFrom.pair
    · exact hnotA.toFrom.single (.of_mem (by simp))
    · exact hnotB.toFrom.single (.of_mem (by simp))
  · intro valuation
    calc
      c.eval valuation = !neither.eval valuation := hc.eval_eq valuation
      _ = !(!a.eval valuation && !b.eval valuation) := by
        rw [hneither.eval_eq, hnotA.eval_eq, hnotB.eval_eq]
      _ = (a.eval valuation || b.eval valuation) := by
        rw [Bool.not_and, Bool.not_not, Bool.not_not]

theorem select_yields {arena : Arena} {c a b : Bit} (hc : c.Fits arena)
    (ha : a.Fits arena) (hb : b.Fits arena) :
    NodeM.Yields (c.select a b) arena fun later d =>
      d.BuiltFrom later [c, a, b] fun valuation =>
        if c.eval valuation then a.eval valuation else b.eval valuation := by
  refine (and_yields hc ha).bind fun arena₁ whenTrue hle₁ hwhenTrue => ?_
  refine (not_yields (hc.mono hle₁)).bind fun arena₂ notC hle₂ ⟨hnotC, _⟩ => ?_
  refine (and_yields hnotC.fits (hb.mono (hle₁.trans hle₂))).bind
    fun arena₃ whenFalse hle₃ hwhenFalse => ?_
  refine (or_yields (hwhenTrue.fits.mono (hle₂.trans hle₃))
    hwhenFalse.fits).mono fun later d _ hd => ⟨?_, hd.fits, ?_⟩
  · apply hd.toFrom.pair
    · exact hwhenTrue.toFrom.pair (.of_mem (by simp)) (.of_mem (by simp))
    · exact hwhenFalse.toFrom.pair (hnotC.toFrom.single (.of_mem (by simp)))
        (.of_mem (by simp))
  · intro valuation
    rw [hd.eval_eq, hwhenTrue.eval_eq, hwhenFalse.eval_eq, hnotC.eval_eq]
    cases c.eval valuation <;> simp

theorem equals_yields {arena : Arena} {a b : Bit} (ha : a.Fits arena)
    (hb : b.Fits arena) :
    NodeM.Yields (a.equals b) arena fun later c =>
      c.BuiltFrom later [a, b] fun valuation => a.eval valuation ==
        b.eval valuation := by
  refine (and_yields ha hb).bind fun arena₁ both hle₁ hboth => ?_
  refine (not_yields (ha.mono hle₁)).bind fun arena₂ notA hle₂ ⟨hnotA, _⟩ => ?_
  refine (not_yields (hb.mono (hle₁.trans hle₂))).bind
    fun arena₃ notB hle₃ ⟨hnotB, _⟩ => ?_
  refine (and_yields (hnotA.fits.mono hle₃) hnotB.fits).bind
    fun arena₄ neither hle₄ hneither => ?_
  refine (or_yields (hboth.fits.mono (hle₂.trans (hle₃.trans hle₄)))
    hneither.fits).mono fun later c _ hc => ⟨?_, hc.fits, ?_⟩
  · apply hc.toFrom.pair
    · exact hboth.toFrom.pair (.of_mem (by simp)) (.of_mem (by simp))
    · exact hneither.toFrom.pair (hnotA.toFrom.single (.of_mem (by simp)))
        (hnotB.toFrom.single (.of_mem (by simp)))
  · intro valuation
    rw [hc.eval_eq, hboth.eval_eq, hneither.eval_eq, hnotA.eval_eq,
      hnotB.eval_eq]
    cases a.eval valuation <;> cases b.eval valuation <;> rfl

theorem majority_yields {arena : Arena} {a b c : Bit} (ha : a.Fits arena)
    (hb : b.Fits arena) (hc : c.Fits arena) :
    NodeM.Yields (a.majority b c) arena fun later d =>
      d.BuiltFrom later [a, b, c] fun valuation =>
        Bool.atLeastTwo (a.eval valuation) (b.eval valuation)
          (c.eval valuation) := by
  refine (and_yields ha hb).bind fun arena₁ ab hle₁ hab => ?_
  refine (and_yields (ha.mono hle₁) (hc.mono hle₁)).bind
    fun arena₂ ac hle₂ hac => ?_
  have hle := hle₁.trans hle₂
  refine (and_yields (hb.mono hle) (hc.mono hle)).bind
    fun arena₃ bc hle₃ hbc => ?_
  refine (or_yields (hab.fits.mono (hle₂.trans hle₃)) (hac.fits.mono hle₃)).bind
    fun arena₄ either hle₄ heither => ?_
  refine (or_yields heither.fits (hbc.fits.mono hle₄)).mono fun later d _ hd =>
    ⟨?_, hd.fits, ?_⟩
  · apply hd.toFrom.pair
    · apply heither.toFrom.pair
      · exact hab.toFrom.pair (.of_mem (by simp)) (.of_mem (by simp))
      · exact hac.toFrom.pair (.of_mem (by simp)) (.of_mem (by simp))
    · exact hbc.toFrom.pair (.of_mem (by simp)) (.of_mem (by simp))
  · intro valuation
    rw [hd.eval_eq, heither.eval_eq, hab.eval_eq, hac.eval_eq, hbc.eval_eq]

/-! ## Exclusive or -/

def IsConj (b : Bit) : Prop :=
  ∃ nodeX x nodeY y, b = .conj nodeX x nodeY y

def AllVars (a b c : Bit) : Prop :=
  ∀ v, c.Mentions v ↔ a.Mentions v ∨ b.Mentions v

private theorem AllVars.of_sameVars {a b c : Bit} (hab : a.SameVars b)
    (hc : c.SameVars a) :
    AllVars a b c := by
  intro v
  rw [hc v, ← hab v, or_self]

theorem and_vars {arena : Arena} {a b : Bit} (ha : a.Fits arena)
    (hb : b.Fits arena) (haopen : a.isLiteral = false)
    (hbopen : b.isLiteral = false) :
    NodeM.Yields (a.and b) arena fun _ c =>
      (c = .literal false ∧ a.SameVars b ∧
        (a.negates b = true ∨ b.negates a = true)) ∨
      (c.isLiteral = false ∧ AllVars a b c ∧ (a.SameVars b ∨ c.IsConj)) := by
  rcases and_cases a b with ⟨hident, h⟩ | ⟨rfl, h⟩ | ⟨rfl, h⟩ | ⟨rfl, h⟩ | ⟨rfl,
    h⟩ |
    ⟨hnegates, h⟩ | ⟨_, _, h⟩
  · have hsame : a.SameVars b := mentions_iff_of_identical ha hb hident
    rw [h]
    exact NodeM.yields_pure (.inr ⟨haopen, .of_sameVars hsame fun _ => Iff.rfl,
      .inl hsame⟩)
  · exact absurd haopen (by decide)
  · exact absurd haopen (by decide)
  · exact absurd hbopen (by decide)
  · exact absurd hbopen (by decide)
  · rw [h]
    refine NodeM.yields_pure (.inl ⟨rfl, ?_, hnegates⟩)
    rcases hnegates with hnegates | hnegates
    · exact mentions_iff_of_negates ha hb hnegates
    · exact fun v => (mentions_iff_of_negates hb ha hnegates v).symm
  · rw [h]
    apply (mkConj_yields ha hb).mono
    rintro later c _ ⟨rfl, _⟩
    exact .inr ⟨rfl, fun _ => Iff.rfl, .inr ⟨_, _, _, _, rfl⟩⟩

private theorem or_vars {arena : Arena} {a b : Bit} (ha : a.Fits arena)
    (hb : b.Fits arena) (hanormal : a.Normal) (hbnormal : b.Normal)
    (haopen : a.isLiteral = false) (hbopen : b.isLiteral = false) :
    NodeM.Yields (a.or b) arena fun _ c =>
      AllVars a b c ∨ (c.isLiteral = true ∧ a.SameVars b ∧
        ¬ (a.IsConj ∧ b.IsConj)) := by
  refine (not_yields ha).bind
    fun arena₁ notA hle₁ ⟨hnotA, hvarsA, hopenA, hboxA⟩ => ?_
  refine (not_yields (hb.mono hle₁)).bind
    fun arena₂ notB hle₂ ⟨hnotB, hvarsB, hopenB, hboxB⟩ => ?_
  have hnotAfits := hnotA.fits.mono hle₂
  have hneither := (and_yields hnotAfits hnotB.fits).and_result
    (and_vars hnotAfits hnotB.fits ((hopenA hanormal).trans haopen)
      ((hopenB hbnormal).trans hbopen))
  refine hneither.bind fun arena₃ neither _ ⟨hbuilt, hvars⟩ => ?_
  refine (not_yields hbuilt.fits).mono
    fun later c _ ⟨_, hsame, hliteral, _⟩ => ?_
  rcases hvars with ⟨rfl, hsameVars, hnegates⟩ | ⟨_, hall, _⟩
  · refine .inr ⟨hliteral trivial, fun v => ?_, ?_⟩
    · rw [← hvarsA v, ← hvarsB v, hsameVars v]
    · -- A disjunction of conjunctions is too deep to fold.
      rintro ⟨⟨nodeX, x, nodeY, y, rfl⟩, ⟨nodeU, u, nodeV, w, rfl⟩⟩
      obtain ⟨node, rfl⟩ := hboxA trivial
      obtain ⟨node', rfl⟩ := hboxB trivial
      simp [negates, identical] at hnegates
  · refine .inl fun v => ?_
    rw [hsame v, hall v, hvarsA v, hvarsB v]

theorem true_and (b : Bit) : (literal true).and b = pure b := by
  cases b with
  | literal value => cases value <;> rfl
  | _ => rfl

theorem and_true {a : Bit} (hnormal : a.Normal) :
    a.and (literal true) = pure a := by
  cases a with
  | literal value => cases value <;> rfl
  | neg node x => cases x <;> first | rfl | exact hnormal.1.elim
  | _ => rfl

theorem and_false (a : Bit) : a.and (literal false) = pure (literal false) := by
  cases a with
  | literal value => cases value <;> rfl
  | neg node x =>
      cases x with
      | literal value => cases value <;> rfl
      | _ => rfl
  | _ => rfl

theorem false_or (b : Bit) : (literal false).or b = b.not >>= Bit.not := by
  change (b.not >>= fun notB => (literal true).and notB >>= Bit.not) = _
  simp only [true_and, pure_bind]

theorem or_false {a : Bit} (hnormal : a.Normal) :
    a.or (literal false) = a.not >>= Bit.not := by
  cases a with
  | literal value => cases value <;> rfl
  | neg node x =>
      change x.and (literal true) >>= Bit.not = _
      rw [and_true hnormal.2]
      rfl
  | _ => rfl

private theorem not_not_vars {arena : Arena} {x : Bit} (hx : x.Fits arena)
    (hnormal : x.Normal) :
    NodeM.Yields (x.not >>= Bit.not) arena fun _ c =>
      c.SameVars x ∧ c.isLiteral = x.isLiteral := by
  refine (not_yields hx).bind fun arena₁ notX _ ⟨hnotX, hvars, hopen, _⟩ => ?_
  refine (not_yields hnotX.fits).mono fun later c _ ⟨_, hsame, hliteral, _⟩ =>
    ⟨fun v => ?_, ?_⟩
  · rw [hsame v, hvars v]
  · rw [hliteral (hnotX.normal (by simpa using hnormal)), hopen hnormal]

def xorOpen (a b : Bit) : NodeM Bit := do
  let onlyA ← a.and (← b.not)
  let onlyB ← (← a.not).and b
  onlyA.or onlyB

theorem xor_cases (a b : Bit) :
    (∃ value, a = .literal value ∧ a.xor b = if value then b.not else pure b) ∨
    (∃ value, b = .literal value ∧ a.xor b = if value then a.not else pure a) ∨
    (a.isLiteral = false ∧ b.isLiteral = false ∧ a.xor b = xorOpen a b) := by
  cases a with
  | literal value => exact .inl ⟨value, rfl, by cases value <;> rfl⟩
  | _ =>
      cases b with
      | literal value => exact .inr (.inl ⟨value, rfl, by cases value <;> rfl⟩)
      | _ => exact .inr (.inr ⟨rfl, rfl, rfl⟩)

private theorem xorOpen_yields {arena : Arena} {a b : Bit} (ha : a.Fits arena)
    (hb : b.Fits arena) :
    NodeM.Yields (a.xorOpen b) arena fun later c =>
      c.BuiltFrom later [a, b] fun valuation => a.eval valuation ^^
        b.eval valuation := by
  refine (not_yields hb).bind fun arena₁ notB hle₁ ⟨hnotB, _⟩ => ?_
  refine (and_yields (ha.mono hle₁) hnotB.fits).bind
    fun arena₂ onlyA hle₂ honlyA => ?_
  have hle := hle₁.trans hle₂
  refine (not_yields (ha.mono hle)).bind fun arena₃ notA hle₃ ⟨hnotA, _⟩ => ?_
  refine (and_yields hnotA.fits (hb.mono (hle.trans hle₃))).bind
    fun arena₄ onlyB hle₄ honlyB => ?_
  refine (or_yields (honlyA.fits.mono (hle₃.trans hle₄)) honlyB.fits).mono
    fun later c _ hc => ⟨?_, hc.fits, ?_⟩
  · apply hc.toFrom.pair
    · exact honlyA.toFrom.pair (.of_mem (by simp))
        (hnotB.toFrom.single (.of_mem (by simp)))
    · exact honlyB.toFrom.pair (hnotA.toFrom.single (.of_mem (by simp)))
        (.of_mem (by simp))
  · intro valuation
    rw [hc.eval_eq, honlyA.eval_eq, honlyB.eval_eq, hnotA.eval_eq,
      hnotB.eval_eq]
    cases a.eval valuation <;> cases b.eval valuation <;> rfl

private theorem xorOpen_vars {arena : Arena} {a b : Bit} (ha : a.Fits arena)
    (hb : b.Fits arena) (hanormal : a.Normal) (hbnormal : b.Normal)
    (haopen : a.isLiteral = false) (hbopen : b.isLiteral = false) :
    NodeM.Yields (a.xorOpen b) arena fun _ c =>
      AllVars a b c ∨ (c.isLiteral = true ∧ a.SameVars b) := by
  refine (not_yields hb).bind
    fun arena₁ notB hle₁ ⟨hnotB, hvarsB, hopenB, _⟩ => ?_
  have hnotBopen := (hopenB hbnormal).trans hbopen
  refine ((and_yields (ha.mono hle₁) hnotB.fits).and_result
    (and_vars (ha.mono hle₁) hnotB.fits haopen hnotBopen)).bind
    fun arena₂ onlyA hle₂ ⟨honlyA, hvarsOnlyA⟩ => ?_
  have hle := hle₁.trans hle₂
  refine (not_yields (ha.mono hle)).bind
    fun arena₃ notA hle₃ ⟨hnotA, hvarsA, hopenA, _⟩ => ?_
  have hnotAopen := (hopenA hanormal).trans haopen
  have hbfits := hb.mono (hle.trans hle₃)
  refine ((and_yields hnotA.fits hbfits).and_result
    (and_vars hnotA.fits hbfits hnotAopen hbopen)).bind
    fun arena₄ onlyB hle₄ ⟨honlyB, hvarsOnlyB⟩ => ?_
  have honlyAnormal : onlyA.Normal :=
    (honlyA.toFrom.pair (.of_mem List.mem_cons_self)
      (hnotB.toFrom.single
        (.of_mem (List.mem_cons_of_mem a (List.mem_singleton_self b))))).normal
      (by simp [hanormal, hbnormal])
  have honlyBnormal : onlyB.Normal :=
    (honlyB.toFrom.pair (hnotA.toFrom.single (.of_mem List.mem_cons_self))
      (.of_mem (List.mem_cons_of_mem a (List.mem_singleton_self b)))).normal
      (by simp [hanormal, hbnormal])
  have honlyAfits := honlyA.fits.mono (hle₃.trans hle₄)
  have hallA : AllVars a notB onlyA → AllVars a b onlyA := by
    intro h v
    rw [h v, hvarsB v]
  have hallB : AllVars notA b onlyB → AllVars a b onlyB := by
    intro h v
    rw [h v, hvarsA v]
  have hsameA : a.SameVars notB → a.SameVars b :=
    fun h v => (h v).trans (hvarsB v)
  have hsameB : notA.SameVars b → a.SameVars b :=
    fun h v => (hvarsA v).symm.trans (h v)
  rcases hvarsOnlyA with ⟨rfl, hsame, _⟩ | ⟨honlyAopen, hall, hconjA⟩
  · rw [false_or]
    apply (not_not_vars honlyB.fits honlyBnormal).mono
    rintro later c _ ⟨hc, hliteral⟩
    rcases hvarsOnlyB with ⟨rfl, _⟩ | ⟨_, hallOnlyB, _⟩
    · exact .inr ⟨hliteral, hsameA hsame⟩
    · exact .inl fun v => (hc v).trans (hallB hallOnlyB v)
  · rcases hvarsOnlyB with ⟨rfl, _⟩ | ⟨honlyBopen, hallOnlyB, hconjB⟩
    · rw [or_false honlyAnormal]
      apply (not_not_vars honlyAfits honlyAnormal).mono
      rintro later c _ ⟨hc, _⟩
      exact .inl fun v => (hc v).trans (hallA hall v)
    · apply (or_vars honlyAfits honlyB.fits honlyAnormal honlyBnormal
        honlyAopen honlyBopen).mono
      rintro later c _ (hc | ⟨hliteral, _, hconj⟩)
      · refine .inl fun v => ?_
        rw [hc v, hallA hall v, hallB hallOnlyB v, or_self]
      · refine .inr ⟨hliteral, ?_⟩
        rcases hconjA with hsame | hconjA
        · exact hsameA hsame
        · rcases hconjB with hsame | hconjB
          · exact hsameB hsame
          · exact absurd ⟨hconjA, hconjB⟩ hconj

theorem xor_yields {arena : Arena} {a b : Bit} (ha : a.Fits arena)
    (hb : b.Fits arena) :
    NodeM.Yields (a.xor b) arena fun later c =>
      c.BuiltFrom later [a, b] (fun valuation => a.eval valuation ^^
        b.eval valuation) ∧
        (a.Normal → b.Normal → AllVars a b c ∨ (c.isLiteral = true ∧
          a.SameVars b)) := by
  rcases xor_cases a b with
    ⟨value, rfl, h⟩ | ⟨value, rfl, h⟩ | ⟨haopen, hbopen, h⟩
  · rw [h]
    cases value with
    | false =>
        refine NodeM.yields_pure ⟨.operand (by simp) hb fun _ => by simp,
          fun _ _ => .inl ?_⟩
        exact fun v => by simp
    | true =>
        refine (not_yields hb).mono fun later c _ ⟨hc, hsame, _⟩ =>
          ⟨⟨?_, hc.fits, ?_⟩, ?_⟩
        · exact hc.toFrom.single (.of_mem (by simp))
        · exact fun valuation => by simp [hc.eval_eq]
        · exact fun _ _ => .inl fun v => by simp [hsame v]
  · rw [h]
    cases value with
    | false =>
        refine NodeM.yields_pure ⟨.operand (by simp) ha fun _ => by simp,
          fun _ _ => .inl ?_⟩
        exact fun v => by simp
    | true =>
        refine (not_yields ha).mono fun later c _ ⟨hc, hsame, _⟩ =>
          ⟨⟨?_, hc.fits, ?_⟩, ?_⟩
        · exact hc.toFrom.single (.of_mem (by simp))
        · exact fun valuation => by simp [hc.eval_eq]
        · exact fun _ _ => .inl fun v => by simp [hsame v]
  · rw [h]
    by_cases hnormal : a.Normal ∧ b.Normal
    · apply ((xorOpen_yields ha hb).and_result
        (xorOpen_vars ha hb hnormal.1 hnormal.2 haopen hbopen)).mono
      exact fun later c _ ⟨hc, hvars⟩ => ⟨hc, fun _ _ => hvars⟩
    · apply (xorOpen_yields ha hb).mono
      exact fun later c _ hc => ⟨hc, fun ha' hb' => absurd ⟨ha', hb'⟩ hnormal⟩

end Bit

end SymbolicMachine
