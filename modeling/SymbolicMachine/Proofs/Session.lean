import SymbolicMachine.Proofs.Bit.Sharing

/-!
# Computations of a session

What a computation of `SymM` does is stated from a session and the arena of its
nodes: it stops with one of the faults that `stops` admits, or it ends, and then
the arena has grown with the session and the result satisfies a condition.
-/

namespace SymbolicMachine

namespace SymM

variable {α β : Type} {stops : Fault → Prop}

def Yields (stops : Fault → Prop) (x : SymM α) (session : Session)
    (arena : Arena) (post : Session → Arena → α → Prop) : Prop :=
  match x session with
  | .ok a after =>
      ∃ later,
      arena <+: later ∧ after.nextNode = later.length ∧ post after later a
  | .error fault _ => stops fault

theorem Yields.of_ok {x : SymM α} {session after : Session} {arena : Arena}
    {a : α} {post : Session → Arena → α → Prop}
    (h : Yields stops x session arena post) (hrun : x session = .ok a after) :
    ∃ later,
      arena <+: later ∧ after.nextNode = later.length ∧ post after later a := by
  simpa only [Yields, hrun] using h

theorem Yields.of_error {x : SymM α} {session after : Session} {arena : Arena}
    {fault : Fault} {post : Session → Arena → α → Prop}
    (h : Yields stops x session arena post)
    (hrun : x session = .error fault after) : stops fault := by
  simpa only [Yields, hrun] using h

theorem Yields.exists_ok {x : SymM α} {session : Session} {arena : Arena}
    {post : Session → Arena → α → Prop}
    (h : Yields (fun _ => False) x session arena post) :
    ∃ a after later, x session = .ok a after ∧ arena <+: later ∧
      after.nextNode = later.length ∧ post after later a := by
  cases hrun : x session with
  | ok a after =>
      obtain ⟨later, hle, hnode, hpost⟩ := h.of_ok hrun
      exact ⟨a, after, later, rfl, hle, hnode, hpost⟩
  | error fault after => exact (h.of_error hrun).elim

theorem exists_arena (session : Session) : ∃ arena : Arena, session.nextNode =
    arena.length :=
  ⟨List.replicate session.nextNode (.literal false), by simp⟩

theorem bind_of_ok {x : SymM α} {f : α → SymM β} {session after : Session}
    {a : α} (hrun : x session = .ok a after) :
    (x >>= f) session = f a after := by
  change EStateM.bind x f session = _
  simp only [EStateM.bind, hrun]

theorem bind_of_error {x : SymM α} {f : α → SymM β} {session after : Session}
    {fault : Fault} (hrun : x session = .error fault after) :
    (x >>= f) session = .error fault after := by
  change EStateM.bind x f session = _
  simp only [EStateM.bind, hrun]

theorem bind_eq_ok {x : SymM α} {f : α → SymM β} {session last : Session}
    {b : β} :
    (x >>= f) session = .ok b last ↔
      ∃ a after, x session = .ok a after ∧ f a after = .ok b last := by
  change EStateM.bind x f session = _ ↔ _
  cases hrun : x session with
  | ok a after => simp [EStateM.bind, hrun]
  | error fault after => simp [EStateM.bind, hrun]

def endsWith (x : SymM α) (session : Session) (check : α → Session → Bool) :
    Bool :=
  match x session with
  | .ok a after => check a after
  | .error _ _ => false

theorem exists_ok_of_endsWith {x : SymM α} {session : Session}
    {check : α → Session → Bool} (h : endsWith x session check = true) :
    ∃ a after, x session = .ok a after ∧ check a after = true := by
  unfold endsWith at h
  split at h
  case h_1 a after hrun => exact ⟨a, after, hrun, h⟩
  case h_2 => cases h

def stopsWith (x : SymM α) (session : Session) (fault : Fault) : Bool :=
  match x session with
  | .ok _ _ => false
  | .error other _ => other = fault

theorem exists_error_of_stopsWith {x : SymM α} {session : Session}
    {fault : Fault} (h : stopsWith x session fault = true) :
    ∃ after, x session = .error fault after := by
  unfold stopsWith at h
  split at h
  case h_1 => cases h
  case h_2 other after hrun => exact ⟨after, of_decide_eq_true h ▸ hrun⟩

theorem yields_of_ok {x : SymM α} {session after : Session}
    {arena later : Arena} {a : α} {post : Session → Arena → α → Prop}
    (hrun : x session = .ok a after) (hle : arena <+: later)
    (hnode : after.nextNode = later.length) (hpost : post after later a) :
    Yields stops x session arena post := by
  simp only [Yields, hrun]
  exact ⟨later, hle, hnode, hpost⟩

theorem yields_pure {a : α} {session : Session} {arena : Arena}
    {post : Session → Arena → α → Prop}
    (hnode : session.nextNode = arena.length) (h : post session arena a) :
    Yields stops (pure a) session arena post :=
  yields_of_ok rfl List.prefix_rfl hnode h

theorem yields_throw {fault : Fault} {session : Session} {arena : Arena}
    {post : Session → Arena → α → Prop} (h : stops fault) :
    Yields stops (throw fault) session arena post := h

theorem Yields.bind {x : SymM α} {f : α → SymM β} {session : Session}
    {arena : Arena} {mid : Session → Arena → α → Prop}
    {post : Session → Arena → β → Prop} (hx : Yields stops x session arena mid)
    (hf : ∀ after later a, arena <+: later → after.nextNode = later.length →
      mid after later a →
      Yields stops (f a) after later post) :
    Yields stops (x >>= f) session arena post := by
  cases hrun : x session with
  | error fault after =>
      simp only [Yields, bind_of_error hrun]
      exact hx.of_error hrun
  | ok a after =>
      obtain ⟨later, hle, hnode, hmid⟩ := hx.of_ok hrun
      have hnext := hf after later a hle hnode hmid
      simp only [Yields, bind_of_ok hrun]
      cases hlast : f a after with
      | error fault last => exact hnext.of_error hlast
      | ok b last =>
          obtain ⟨final, hle', hnode', hpost⟩ := hnext.of_ok hlast
          exact ⟨final, hle.trans hle', hnode', hpost⟩

theorem Yields.mono {x : SymM α} {session : Session} {arena : Arena}
    {mid post : Session → Arena → α → Prop}
    (hx : Yields stops x session arena mid)
    (h : ∀ after later a, arena <+: later → after.nextNode = later.length →
      mid after later a →
      post after later a) :
    Yields stops x session arena post := by
  cases hrun : x session with
  | error fault after =>
      simp only [Yields, hrun]
      exact hx.of_error hrun
  | ok a after =>
      obtain ⟨later, hle, hnode, hmid⟩ := hx.of_ok hrun
      exact yields_of_ok hrun hle hnode (h after later a hle hnode hmid)

theorem Yields.widen {more : Fault → Prop} {x : SymM α} {session : Session}
    {arena : Arena} {post : Session → Arena → α → Prop}
    (hx : Yields stops x session arena post)
    (h : ∀ fault, stops fault → more fault) :
    Yields more x session arena post := by
  cases hrun : x session with
  | error fault after =>
      simp only [Yields, hrun]
      exact h fault (hx.of_error hrun)
  | ok a after =>
      obtain ⟨later, hle, hnode, hpost⟩ := hx.of_ok hrun
      exact yields_of_ok hrun hle hnode hpost

def NodesOnly (session after : Session) : Prop :=
  after = { session with nextNode := after.nextNode }

theorem NodesOnly.nextVar_eq {session after : Session}
    (h : NodesOnly session after) :
    after.nextVar = session.nextVar := by
  rw [h]

theorem NodesOnly.trans {session mid after : Session}
    (h : NodesOnly session mid) (h' : NodesOnly mid after) :
    NodesOnly session after := by
  unfold NodesOnly at *
  rw [h', h]

theorem yields_ofNodeM {x : NodeM α} {session : Session} {arena : Arena}
    {post : Arena → α → Prop} (hnode : session.nextNode = arena.length)
    (hx : NodeM.Yields x arena post) :
    Yields stops (ofNodeM x) session arena fun after later a =>
      NodesOnly session after ∧ post later a := by
  obtain ⟨later, hle, hlength, hpost⟩ := hx
  refine yields_of_ok (ofNodeM_apply x session) hle ?_ ⟨rfl, ?_⟩
  · simp only [hnode, hlength]
  · rw [hnode]
    exact hpost

theorem yields_record {level : Level} {text : String} {session : Session}
    {arena : Arena} (hnode : session.nextNode = arena.length) :
    Yields stops (record level text) session arena fun after later _ =>
      after.nextVar = session.nextVar ∧ later = arena :=
  yields_of_ok (record_apply level text session) List.prefix_rfl hnode
    ⟨rfl, rfl⟩

theorem record_ends (level : Level) (text : String) (session : Session) :
    ∃ after, record level text session = .ok () after ∧
      after.nextNode = session.nextNode ∧
      after.nextVar = session.nextVar :=
  ⟨_, record_apply level text session, rfl, rfl⟩

theorem bind_congr {x y : SymM α} {f : α → SymM β} {session other : Session}
    (h : x session = y other) : (x >>= f) session = (y >>= f) other := by
  change EStateM.bind x f session = EStateM.bind y f other
  simp only [EStateM.bind, h]

end SymM

end SymbolicMachine
