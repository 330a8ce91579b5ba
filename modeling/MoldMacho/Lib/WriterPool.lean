import Mathlib.Algebra.GroupWithZero.Nat
import Mathlib.Algebra.Order.Group.Nat
import Mathlib.Data.List.Basic
import Mathlib.Data.List.Flatten
import Mathlib.Data.List.Nodup
import Mathlib.Data.List.Pairwise
import Mathlib.Logic.Function.Basic
import Mathlib.Logic.Relation
import Mathlib.Data.Nat.Notation

/-!
# Writers that share a queue

One thread makes some data and sends blocks of its bytes, as they become final,
to a queue that several writers take them from; it writes other blocks itself
once the writers are done. The steps of the threads interleave in any order, a
write taking a step for each byte.
-/

set_option autoImplicit false

namespace MoldMacho.WriterPool

structure Block where
  start : ℕ
  stop : ℕ
  deriving DecidableEq

def Block.positions (b : Block) : List ℕ := List.range' b.start (b.stop - b.start)

/-- What the thread that makes the data does next. -/
inductive Action (σ : Type) where
  | edit (f : σ → σ)
  | send (b : Block)
  | defer (b : Block)
  | close

inductive Writer where
  | idle
  | busy (b : Block) (pos : ℕ)
  | done
  deriving DecidableEq

structure State (σ β : Type) where
  program : List (Action σ)
  data : σ
  channel : List Block := []
  closed : Bool := false
  writers : List Writer
  deferred : List Block := []
  file : ℕ → Option β
  log : List ℕ := []

variable {σ β : Type}

section Step
variable (byte : σ → ℕ → β)

/-- The state after a byte is written. -/
def State.put (s : State σ β) (pos : ℕ) : State σ β :=
  { s with file := Function.update s.file pos (some (byte s.data pos)), log := s.log ++ [pos] }

inductive Step : State σ β → State σ β → Prop where
  | edit {s : State σ β} {f : σ → σ} {rest : List (Action σ)} (h : s.program = .edit f::rest) :
      Step s { s with program := rest, data := f s.data }
  | send {s : State σ β} {b : Block} {rest : List (Action σ)} (h : s.program = .send b::rest) :
      Step s { s with program := rest, channel := s.channel ++ [b] }
  | defer {s : State σ β} {b : Block} {rest : List (Action σ)} (h : s.program = .defer b::rest) :
      Step s { s with program := rest, deferred := s.deferred ++ [b] }
  | close {s : State σ β} {rest : List (Action σ)} (h : s.program = .close::rest) :
      Step s { s with program := rest, closed := true }
  | take {s : State σ β} {b : Block} {channel : List Block} {front back : List Writer}
      (hc : s.channel = b::channel) (hw : s.writers = front ++ .idle::back) :
      Step s { s with channel, writers := front ++ .busy b b.start::back }
  | write {s : State σ β} {b : Block} {pos : ℕ} {front back : List Writer}
      (hw : s.writers = front ++ .busy b pos::back) (hlt : pos < b.stop) :
      Step s { s.put byte pos with writers := front ++ .busy b (pos+1)::back }
  | finish {s : State σ β} {b : Block} {pos : ℕ} {front back : List Writer}
      (hw : s.writers = front ++ .busy b pos::back) (hle : b.stop ≤ pos) :
      Step s { s with writers := front ++ .idle::back }
  | exit {s : State σ β} {front back : List Writer} (hc : s.channel = []) (hclosed : s.closed = true)
      (hw : s.writers = front ++ .idle::back) : Step s { s with writers := front ++ .done::back }
  | writeDeferred {s : State σ β} {b : Block} {rest : List Block} (hclosed : s.closed = true)
      (hdone : ∀ w ∈ s.writers, w = .done) (hd : s.deferred = b::rest) (hlt : b.start < b.stop) :
      Step s { s.put byte b.start with deferred := ⟨b.start+1,b.stop⟩::rest }
  | finishDeferred {s : State σ β} {b : Block} {rest : List Block} (hclosed : s.closed = true)
      (hdone : ∀ w ∈ s.writers, w = .done) (hd : s.deferred = b::rest) (hle : b.stop ≤ b.start) :
      Step s { s with deferred := rest }

end Step

abbrev Reaches (byte : σ → ℕ → β) : State σ β → State σ β → Prop :=
  Relation.ReflTransGen (Step byte)

/-- The writers before anything is sent. -/
def start (program : List (Action σ)) (data : σ) (n : ℕ) : State σ β where
  program
  data
  writers := List.replicate n .idle
  file := fun _ => none

/-- All blocks are written. -/
structure State.Final (s : State σ β) : Prop where
  program : s.program = []
  writers : ∀ w ∈ s.writers, w = .done
  deferred : s.deferred = []

/-! ## Each position once -/

def Action.positions : Action σ → List ℕ
  | .send b | .defer b => b.positions
  | .edit _ | .close => []

def Writer.rest : Writer → List ℕ
  | .busy b pos => List.range' pos (b.stop - pos)
  | .idle | .done => []

/-- The positions sent or set aside, and not yet written. -/
def State.queued (s : State σ β) : List ℕ :=
  s.channel.flatMap Block.positions ++ s.writers.flatMap Writer.rest ++
    s.deferred.flatMap Block.positions

def State.pending (s : State σ β) : List ℕ := s.program.flatMap Action.positions ++ s.queued

theorem range_next {pos stop : ℕ} (h : pos < stop) :
    List.range' pos (stop-pos) = pos::List.range' (pos+1) (stop-(pos+1)) := by
  obtain ⟨k,rfl⟩ := Nat.exists_eq_add_of_lt h
  rw [show pos + k + 1 - pos = k + 1 by omega, show pos + k + 1 - (pos+1) = k by omega]
  rfl

theorem range_none {pos stop : ℕ} (h : stop ≤ pos) : List.range' pos (stop-pos) = [] := by
  rw [Nat.sub_eq_zero_of_le h]
  rfl

section Positions
variable {byte : σ → ℕ → β} {s t : State σ β}

/-- A step writes what it takes off the positions pending. -/
theorem step_pending (h : Step byte s t) : (t.log ++ t.pending).Perm (s.log ++ s.pending) := by
  rw [List.perm_iff_count]
  intro p
  simp only [State.pending, State.queued]
  cases h with
  | edit h => simp [h, Action.positions]
  | send h =>
    simp [h, Action.positions]
    omega
  | defer h =>
    simp [h, Action.positions]
    omega
  | close h => simp [h, Action.positions]
  | take hc hw =>
    simp [hc, hw, Writer.rest, Block.positions]
    omega
  | write hw hlt =>
    simp [hw, Writer.rest, State.put, range_next hlt, List.count_cons]
    omega
  | finish hw hle => simp [hw, Writer.rest, range_none hle]
  | exit hc hclosed hw => simp [hw, Writer.rest]
  | writeDeferred hclosed hdone hd hlt =>
    simp [hd, State.put, Block.positions, range_next hlt, List.count_cons]
    omega
  | finishDeferred hclosed hdone hd hle => simp [hd, Block.positions, range_none hle]

theorem reaches_pending (h : Reaches byte s t) : (t.log ++ t.pending).Perm (s.log ++ s.pending) := by
  induction h with
  | refl => exact List.Perm.refl _
  | tail _ hstep ih => exact (step_pending hstep).trans ih

end Positions

/-! ## What is written is final -/

/-- No edit of the program changes a byte once its position is sent or set aside. -/
def Safe (byte : σ → ℕ → β) : List ℕ → σ → List (Action σ) → Prop
  | _, _, [] => True
  | queued, data, .edit f::rest =>
    (∀ p ∈ queued, byte (f data) p = byte data p) ∧ Safe byte queued (f data) rest
  | queued, data, action::rest => Safe byte (queued ++ action.positions) data rest

/-- The data once the program is done. -/
def result : σ → List (Action σ) → σ
  | data, [] => data
  | data, .edit f::rest => result (f data) rest
  | data, _::rest => result data rest

theorem Safe.mono {byte : σ → ℕ → β} {queued queued' : List ℕ} {data : σ}
    {program : List (Action σ)} (h : Safe byte queued data program)
    (hsub : ∀ p ∈ queued', p ∈ queued) : Safe byte queued' data program := by
  induction program generalizing queued queued' data with
  | nil => trivial
  | cons action rest ih =>
    have hmore : ∀ p ∈ queued' ++ action.positions, p ∈ queued ++ action.positions := by
      intro p hp
      rw [List.mem_append] at hp ⊢
      exact hp.imp_left (hsub p)
    cases action with
    | edit f => exact ⟨fun p hp => h.1 p (hsub p hp),ih h.2 hsub⟩
    | send b => exact ih h hmore
    | defer b => exact ih h hmore
    | close => exact ih h hmore

/-- Whether an action only sends a block or sets one aside. -/
def Action.isWrite : Action σ → Bool
  | .send _ | .defer _ => true
  | .edit _ | .close => false

theorem safe_writes {byte : σ → ℕ → β} {queued : List ℕ} {data : σ} {actions rest : List (Action σ)}
    (hw : ∀ action ∈ actions, action.isWrite = true)
    (h : Safe byte (queued ++ actions.flatMap Action.positions) data rest) :
    Safe byte queued data (actions ++ rest) := by
  induction actions generalizing queued with
  | nil => exact h.mono fun p hp => List.mem_append_left _ hp
  | cons action actions ih =>
    rw [List.flatMap_cons, ← List.append_assoc] at h
    have hrest := ih (List.forall_mem_of_forall_mem_cons hw) h
    cases action with
    | send b => exact hrest
    | defer b => exact hrest
    | edit f => exact absurd (hw _ List.mem_cons_self) (by simp [Action.isWrite])
    | close => exact absurd (hw _ List.mem_cons_self) (by simp [Action.isWrite])

/-- What holds of the file in every state: its bytes are those of the data, which
no edit to come changes. -/
structure Sound (byte : σ → ℕ → β) (last : σ) (s : State σ β) : Prop where
  safe : Safe byte (s.log ++ s.queued) s.data s.program
  file : ∀ p ∈ s.log, s.file p = some (byte s.data p)
  result : result s.data s.program = last

section Sound
variable {byte : σ → ℕ → β} {last : σ} {s t : State σ β}

theorem start_sound {program : List (Action σ)} {data : σ} (n : ℕ) (h : Safe byte [] data program) :
    Sound byte (WriterPool.result data program) (start program data n) where
  safe := by
    refine h.mono fun p hp => ?_
    simp [start, State.queued, Writer.rest] at hp
  file := by simp [start]
  result := rfl

theorem Sound.put (h : Sound byte last s) (pos : ℕ) :
    ∀ p ∈ (s.put byte pos).log, (s.put byte pos).file p = some (byte s.data p) := by
  intro p hp
  by_cases hpos : p = pos
  · subst hpos
    exact Function.update_self ..
  · have hlog : p ∈ s.log := by simpa [State.put, hpos] using hp
    exact (Function.update_of_ne hpos ..).trans (h.file p hlog)

/-- A step of a writer leaves the positions that are queued or written. -/
theorem step_queued (h : Step byte s t) (hp : t.program = s.program) (p : ℕ)
    (hmem : p ∈ t.log ++ t.queued) : p ∈ s.log ++ s.queued := by
  have hcount := (step_pending h).count_eq p
  rw [State.pending, State.pending, hp] at hcount
  rw [← List.count_pos_iff] at hmem ⊢
  simp only [List.count_append] at hcount hmem ⊢
  omega

theorem step_sound (h : Sound byte last s) (hstep : Step byte s t) : Sound byte last t := by
  have hqueued := step_queued hstep
  have hsafe := h.safe
  have hresult := h.result
  cases hstep with
  | edit hp =>
    rw [hp] at hsafe hresult
    exact ⟨hsafe.2,fun p hlog => (h.file p hlog).trans
      (congrArg some (hsafe.1 p (List.mem_append_left _ hlog)).symm),hresult⟩
  | @send b rest hp =>
    rw [hp] at hsafe hresult
    refine ⟨Safe.mono hsafe fun p hmem => ?_,h.file,hresult⟩
    simp only [State.queued, List.flatMap_append, List.flatMap_singleton, List.mem_append] at hmem ⊢
    tauto
  | @defer b rest hp =>
    rw [hp] at hsafe hresult
    refine ⟨Safe.mono hsafe fun p hmem => ?_,h.file,hresult⟩
    simp only [State.queued, List.flatMap_append, List.flatMap_singleton, List.mem_append] at hmem ⊢
    tauto
  | close hp =>
    rw [hp] at hsafe hresult
    exact ⟨Safe.mono hsafe fun p hmem => List.mem_append_left _ hmem,h.file,hresult⟩
  | take hc hw => exact ⟨hsafe.mono (hqueued rfl),h.file,hresult⟩
  | @write b pos front back hw hlt => exact ⟨hsafe.mono (hqueued rfl),h.put pos,hresult⟩
  | finish hw hle => exact ⟨hsafe.mono (hqueued rfl),h.file,hresult⟩
  | exit hc hclosed hw => exact ⟨hsafe.mono (hqueued rfl),h.file,hresult⟩
  | @writeDeferred b rest hclosed hdone hd hlt =>
    exact ⟨hsafe.mono (hqueued rfl),h.put b.start,hresult⟩
  | finishDeferred hclosed hdone hd hle => exact ⟨hsafe.mono (hqueued rfl),h.file,hresult⟩

theorem reaches_sound (h : Sound byte last s) (hreach : Reaches byte s t) : Sound byte last t := by
  induction hreach with
  | refl => exact h
  | tail _ hstep ih => exact step_sound ih hstep

end Sound

/-! ## Blocks written at once -/

def Action.sent : Action σ → List Block
  | .send b => [b]
  | .edit _ | .defer _ | .close => []

def Writer.block : Writer → List Block
  | .busy b _ => [b]
  | .idle | .done => []

/-- The blocks of the writers, and those still to be sent or taken. -/
def State.live (s : State σ β) : List Block :=
  s.program.flatMap Action.sent ++ s.channel ++ s.writers.flatMap Writer.block

section Live
variable {byte : σ → ℕ → β} {s t : State σ β}

/-- A block is not sent twice. -/
theorem step_live (h : Step byte s t) (b : Block) : t.live.count b ≤ s.live.count b := by
  simp only [State.live]
  cases h with
  | edit h => simp [h, Action.sent]
  | send h => simp [h, Action.sent, List.count_cons]; omega
  | defer h => simp [h, Action.sent]
  | close h => simp [h, Action.sent]
  | take hc hw => simp [hc, hw, Writer.block, List.count_cons]; omega
  | write hw hlt => simp [hw, Writer.block, State.put]
  | finish hw hle => simp [hw, Writer.block, List.count_cons]
  | exit hc hclosed hw => simp [hw, Writer.block]
  | writeDeferred hclosed hdone hd hlt => simp [State.put]
  | finishDeferred hclosed hdone hd hle => simp

theorem reaches_live (h : Reaches byte s t) (b : Block) : t.live.count b ≤ s.live.count b := by
  induction h with
  | refl => exact le_rfl
  | tail _ hstep ih => exact (step_live hstep b).trans ih

theorem sent_sublist (program : List (Action σ)) :
    ((program.flatMap Action.sent).flatMap Block.positions).Sublist
      (program.flatMap Action.positions) := by
  induction program with
  | nil => exact List.Sublist.refl []
  | cons action program ih =>
    rw [List.flatMap_cons, List.flatMap_cons, List.flatMap_append]
    refine List.Sublist.append ?_ ih
    cases action with
    | send b => simp [Action.sent, Action.positions]
    | edit f => exact List.Sublist.refl []
    | defer b => exact List.nil_sublist _
    | close => exact List.Sublist.refl []

/-- The blocks a program sends are apart if no position is written twice. -/
theorem sent_apart {program : List (Action σ)} (hnodup : (program.flatMap Action.positions).Nodup)
    (hlt : ∀ b ∈ program.flatMap Action.sent, b.start < b.stop) :
    (program.flatMap Action.sent).Nodup ∧ ∀ a ∈ program.flatMap Action.sent,
      ∀ b ∈ program.flatMap Action.sent, a ≠ b → a.positions.Disjoint b.positions := by
  obtain ⟨-,hapart⟩ := List.nodup_flatMap.1 ((sent_sublist program).nodup hnodup)
  constructor
  · refine hapart.imp_of_mem ?_
    rintro a b ha - hdisjoint rfl
    have hstart : a.start ∈ a.positions := by
      rw [Block.positions, List.mem_range'_1]
      have := hlt a ha
      omega
    exact hdisjoint hstart hstart
  · have : Std.Symm fun a b : Block => a.positions.Disjoint b.positions :=
      ⟨fun _ _ h _ hb ha => h ha hb⟩
    exact fun a ha b hb hne => hapart.forall ha hb hne

/-- Two writers at once are at different blocks of those sent. -/
theorem busy_ne (h : Reaches byte s t) (hnodup : s.live.Nodup) {a b : Block} {i j : ℕ}
    {front mid back : List Writer} (hw : t.writers = front ++ .busy a i::mid ++ .busy b j::back) :
    a ∈ s.live ∧ b ∈ s.live ∧ a ≠ b := by
  have hmem {c : Block} (hc : c ∈ t.live) : c ∈ s.live :=
    List.count_pos_iff.1 ((List.count_pos_iff.2 hc).trans_le (reaches_live h c))
  refine ⟨hmem ?_,hmem ?_,?_⟩
  · simp [State.live, hw, Writer.block]
  · simp [State.live, hw, Writer.block]
  · rintro rfl
    have hle := (reaches_live h a).trans (List.nodup_iff_count.1 hnodup a)
    simp [State.live, hw, Writer.block] at hle
    omega

end Live

/-! ## Every run ends -/

def Block.size (b : Block) : ℕ := b.stop - b.start

def Action.weight : Action σ → ℕ
  | .edit _ | .close => 1
  | .send b => b.size + 4
  | .defer b => b.size + 2

def Writer.weight : Writer → ℕ
  | .idle => 1
  | .busy b pos => b.stop - pos + 2
  | .done => 0

/-- Bounds the steps that are left. -/
def State.weight (s : State σ β) : ℕ :=
  (s.program.map Action.weight).sum + (s.channel.map fun b => b.size + 3).sum +
    (s.writers.map Writer.weight).sum + (s.deferred.map fun b => b.size + 1).sum

section Ends
variable {byte : σ → ℕ → β} {s t : State σ β}

theorem step_weight (h : Step byte s t) : t.weight < s.weight := by
  simp only [State.weight]
  cases h with
  | edit h => simp [h, Action.weight]
  | send h => simp [h, Action.weight]; omega
  | defer h => simp [h, Action.weight]; omega
  | close h => simp [h, Action.weight]
  | take hc hw => simp [hc, hw, Writer.weight, Block.size]; omega
  | write hw hlt => simp [hw, Writer.weight, State.put]; omega
  | finish hw hle => simp [hw, Writer.weight]
  | exit hc hclosed hw => simp [hw, Writer.weight]
  | writeDeferred hclosed hdone hd hlt => simp [hd, State.put, Block.size]; omega
  | finishDeferred hclosed hdone hd hle => simp [hd]

/-- The program closes the queue last, and a writer stops only once it is closed
and empty. -/
structure Closing (s : State σ β) : Prop where
  program : s.closed = false → ∃ actions, s.program = actions ++ [.close] ∧ .close ∉ actions
  closed : s.closed = true → s.program = []
  done : .done ∈ s.writers → s.closed = true ∧ s.channel = []
  some : s.writers ≠ []

theorem start_closing {program : List (Action σ)} (hclose : .close ∉ program) (data : σ) {n : ℕ}
    (hn : n ≠ 0) : Closing (start (program ++ [.close]) data n : State σ β) where
  program := fun _ => ⟨program,rfl,hclose⟩
  closed := nofun
  done := by simp [start]
  some := by simp [start, hn]

/-- What is left of a program that closes the queue last. -/
theorem Closing.rest {action : Action σ} {rest : List (Action σ)} (h : Closing s)
    (hp : s.program = action::rest) : s.closed = false ∧ (action = .close ∧ rest = [] ∨
      action ≠ .close ∧ ∃ actions, rest = actions ++ [.close] ∧ .close ∉ actions) := by
  have hopen : s.closed = false := by
    cases hc : s.closed with
    | true => simp [h.closed hc] at hp
    | false => rfl
  obtain ⟨actions,hactions,hnot⟩ := h.program hopen
  rw [hp] at hactions
  refine ⟨hopen,?_⟩
  cases actions with
  | nil =>
    obtain ⟨rfl,rfl⟩ := List.cons.inj hactions
    exact Or.inl ⟨rfl,rfl⟩
  | cons first actions =>
    obtain ⟨rfl,rfl⟩ := List.cons.inj hactions
    exact Or.inr ⟨List.ne_of_not_mem_cons hnot |>.symm,actions,rfl,List.not_mem_of_not_mem_cons hnot⟩

/-- A step of the program that does not close the queue. -/
theorem Closing.main (h : Closing s) {action : Action σ} (hp : s.program = action::t.program)
    (hopen : action ≠ .close) (hclosed : t.closed = s.closed) (hw : t.writers = s.writers) :
    Closing t := by
  obtain ⟨hfalse,hclose | ⟨-,hrest⟩⟩ := h.rest hp
  · exact absurd hclose.1 hopen
  · constructor
    · exact fun _ => hrest
    · intro htrue
      rw [hclosed, hfalse] at htrue
      cases htrue
    · intro hdone
      rw [hw] at hdone
      exact absurd (h.done hdone).1 (by simp [hfalse])
    · exact hw ▸ h.some

theorem step_closing (h : Closing s) (hstep : Step byte s t) : Closing t := by
  cases hstep with
  | edit hp => exact h.main hp nofun rfl rfl
  | send hp => exact h.main hp nofun rfl rfl
  | defer hp => exact h.main hp nofun rfl rfl
  | close hp =>
    obtain ⟨hfalse,⟨-,hrest⟩ | ⟨hne,-⟩⟩ := h.rest hp
    · exact ⟨nofun,fun _ => hrest,fun hdone => ⟨rfl,(h.done hdone).2⟩,h.some⟩
    · exact absurd rfl hne
  | take hc hw =>
    refine ⟨h.program,h.closed,fun hdone => ?_,by simp⟩
    have hempty := (h.done (by simpa [hw] using hdone)).2
    simp [hc] at hempty
  | write hw hlt =>
    exact ⟨h.program,h.closed,fun hdone => h.done (by simpa [hw] using hdone),by simp⟩
  | finish hw hle =>
    exact ⟨h.program,h.closed,fun hdone => h.done (by simpa [hw] using hdone),by simp⟩
  | exit hc hclosed hw => exact ⟨h.program,h.closed,fun _ => ⟨hclosed,hc⟩,by simp⟩
  | writeDeferred hclosed hdone hd hlt => exact ⟨h.program,h.closed,h.done,h.some⟩
  | finishDeferred hclosed hdone hd hle => exact ⟨h.program,h.closed,h.done,h.some⟩

theorem reaches_closing (h : Closing s) (hreach : Reaches byte s t) : Closing t := by
  induction hreach with
  | refl => exact h
  | tail _ hstep ih => exact step_closing ih hstep

/-- A writer that has not stopped can go on once the program is done. -/
theorem writer_step (hclosed : s.closed = true) {w : Writer} {front back : List Writer}
    (hw : s.writers = front ++ w::back) (hne : w ≠ .done) : ∃ t, Step byte s t := by
  cases w with
  | idle =>
    cases hc : s.channel with
    | nil => exact ⟨_,.exit hc hclosed hw⟩
    | cons b channel => exact ⟨_,.take hc hw⟩
  | busy b pos =>
    by_cases hlt : pos < b.stop
    · exact ⟨_,.write hw hlt⟩
    · exact ⟨_,.finish hw (Nat.le_of_not_lt hlt)⟩
  | done => exact absurd rfl hne

/-- Some thread can go on until all blocks are written. -/
theorem progress (h : Closing s) : s.Final ∨ ∃ t, Step byte s t := by
  cases hp : s.program with
  | cons action rest =>
    refine Or.inr ?_
    cases action with
    | edit f => exact ⟨_,.edit hp⟩
    | send b => exact ⟨_,.send hp⟩
    | defer b => exact ⟨_,.defer hp⟩
    | close => exact ⟨_,.close hp⟩
  | nil =>
    have hclosed : s.closed = true := by
      cases hc : s.closed with
      | true => rfl
      | false =>
        obtain ⟨actions,hactions,-⟩ := h.program hc
        simp [hp] at hactions
    by_cases hdone : ∀ w ∈ s.writers, w = .done
    · cases hd : s.deferred with
      | nil => exact Or.inl ⟨hp,hdone,hd⟩
      | cons b rest =>
        by_cases hlt : b.start < b.stop
        · exact Or.inr ⟨_,.writeDeferred hclosed hdone hd hlt⟩
        · exact Or.inr ⟨_,.finishDeferred hclosed hdone hd (Nat.le_of_not_lt hlt)⟩
    · push Not at hdone
      obtain ⟨w,hmem,hne⟩ := hdone
      obtain ⟨front,back,hw⟩ := List.append_of_mem hmem
      exact Or.inr (writer_step hclosed hw hne)

/-- Once all blocks are written no positions are pending. -/
theorem final_pending (h : Closing s) (hfinal : s.Final) : s.pending = [] := by
  obtain ⟨w,hw⟩ := List.exists_mem_of_ne_nil _ h.some
  have hchannel := (h.done (hfinal.writers w hw ▸ hw)).2
  have hrest : s.writers.flatMap Writer.rest = [] :=
    List.flatMap_eq_nil_iff.2 fun w hw => by rw [hfinal.writers w hw]; rfl
  rw [State.pending, State.queued, hfinal.program, hchannel, hrest, hfinal.deferred]
  rfl

/-- A run that cannot go on has written each position once, as the program leaves
the data. -/
theorem run_written {program : List (Action σ)} {data : σ} {n : ℕ} (hclose : .close ∉ program)
    (hn : n ≠ 0) (hsafe : Safe byte [] data (program ++ [.close]))
    (hreach : Reaches byte (start (program ++ [.close]) data n) s) (hfinal : s.Final) :
    s.log.Perm (program.flatMap Action.positions) ∧
      ∀ p ∈ s.log, s.file p = some (byte (result data (program ++ [.close])) p) := by
  have hclosing := reaches_closing (start_closing hclose data hn) hreach
  have hsound := reaches_sound (start_sound n hsafe) hreach
  have hperm := reaches_pending hreach
  have hresult := hsound.result
  have hidle : (List.replicate n Writer.idle).flatMap Writer.rest = [] := by simp [Writer.rest]
  constructor
  · rw [final_pending hclosing hfinal, List.append_nil] at hperm
    simpa [start, State.pending, State.queued, hidle, Action.positions] using hperm
  · rw [hfinal.program] at hresult
    rw [← hresult]
    exact hsound.file

end Ends

end MoldMacho.WriterPool
