import Mooooooo.Lib.Cmd

/-!
# A one-slot mailbox with a backlog

Messages are posted to a backlog; the reader sees one message at a time, in a slot.
Moving on replaces the slot by the oldest message of the backlog, or empties it.

* `conservation`: **over any run, the backlog at the start followed by what was
  posted is what was taken into the slot followed by the backlog at the end.** So
  nothing posted is dropped, taken twice or reordered.
* `delivers`: moving on `k` times takes the `k` oldest messages.
-/

namespace Mooooooo

/-- The messages waiting, oldest first, and the message being read. -/
structure Mailbox (α : Type*) where
  backlog : List α
  slot : Option α

namespace Mailbox

variable {α : Type*}

/-- What can be done to a mailbox. -/
inductive Op (α : Type*)
  | post (x : α)
  | next

/-- What a mailbox records: a message posted, or what went into the slot. -/
inductive Rec (α : Type*)
  | posted (x : α)
  | took (o : Option α)

/-- One operation. -/
def step : Op α → Cmd (Mailbox α) (Rec α)
  | .post x => Cmd.emit (fun m => { m with backlog := m.backlog ++ [x] }) fun _ => .posted x
  | .next => Cmd.emit (fun m => ⟨m.backlog.tail, m.backlog.head?⟩) fun m => .took m.slot

/-- The messages posted in a list of records. -/
def posted (rs : List (Rec α)) : List α := rs.filterMap fun
  | .posted x => some x
  | .took _ => none

/-- The messages taken into the slot in a list of records. -/
def taken (rs : List (Rec α)) : List α := rs.filterMap fun
  | .posted _ => none
  | .took o => o

theorem step_conservation (o : Op α) (m : Mailbox α) :
    m.backlog ++ posted (step o m).2 = taken (step o m).2 ++ (step o m).1.backlog := by
  cases o with
  | post x => simp [step, posted, taken]
  | next => cases h : m.backlog <;> simp [step, posted, taken, h]

/-- **Conservation.** Nothing posted is dropped, taken twice or reordered. -/
theorem conservation (os : List (Op α)) (m : Mailbox α) :
    m.backlog ++ posted (Cmd.forEach step os m).2 =
      taken (Cmd.forEach step os m).2 ++ (Cmd.forEach step os m).1.backlog := by
  induction os generalizing m with
  | nil => simp [posted, taken]
  | cons o os ih =>
    have h1 := step_conservation o m
    have h2 := ih (step o m).1
    simp only [Cmd.forEach_cons, posted, taken, List.filterMap_append] at h1 h2 ⊢
    rw [← List.append_assoc, h1, List.append_assoc, h2, List.append_assoc]

/-- How often the reader moves on. -/
def nexts (os : List (Op α)) : ℕ := os.countP fun
  | .next => true
  | .post _ => false

/-- **Delivery.** The messages that wait are taken in order, one at each move. -/
theorem delivers (os : List (Op α)) (m : Mailbox α) :
    m.backlog.take (nexts os) <+: taken (Cmd.forEach step os m).2 := by
  induction os generalizing m with
  | nil => exact List.nil_prefix
  | cons o os ih =>
    have hrest := ih (step o m).1
    rw [Cmd.forEach_cons]
    cases o with
    | post x =>
      have hgrow : m.backlog.take (nexts os) <+: (m.backlog ++ [x]).take (nexts os) :=
        (List.prefix_append _ _).take _
      exact hgrow.trans hrest
    | next =>
      have hcount : nexts (.next :: os) = nexts os + 1 := by simp [nexts]
      cases hq : m.backlog with
      | nil => simp
      | cons x q =>
        rw [hcount, List.take_succ_cons]
        simp only [step, Cmd.emit_apply, hq, List.tail_cons] at hrest
        simpa [step, taken, hq] using hrest

end Mailbox

end Mooooooo
