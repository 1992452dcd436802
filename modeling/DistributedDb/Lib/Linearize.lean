import Mathlib.Data.List.Nodup

/-
Concurrent histories and sequential objects.

A history lists when requests were made and answered.  It linearizes to an order
of requests when the sequential object, run in that order, gives the replies of
the history, and a request that was answered before another was made comes
first.  A request that is still open may be in the order or not.

`Recorded` builds a history and an order side by side: between its invocation
and its response a request is committed once, with the reply the object gives at
that moment.  Every such pair linearizes.
-/

namespace DistributedDb
namespace Linearize

variable {σ Op Reply : Type}

inductive Event (Op Reply : Type) where
  | invoke (id : Nat) (op : Op)
  | respond (id : Nat) (op : Op) (reply : Reply)

structure Entry (Op Reply : Type) where
  id : Nat
  op : Op
  reply : Reply

variable (spec : σ → Op → σ × Reply)

/-- The state of the sequential object after the requests of `order`. -/
def final (s : σ) (order : List (Entry Op Reply)) : σ :=
  order.foldl (fun s e => (spec s e.op).1) s

/-- The replies are those of the sequential object. -/
def Legal : σ → List (Entry Op Reply) → Prop
  | _, [] => True
  | s, e :: rest => e.reply = (spec s e.op).2 ∧ Legal (spec s e.op).1 rest

/-- Request `a` was answered before request `b` was made. -/
def Precedes (history : List (Event Op Reply)) (a b : Nat) : Prop :=
  ∃ before after, history = before ++ after ∧
    (∃ op reply, Event.respond a op reply ∈ before) ∧ ∃ op, Event.invoke b op ∈ after

structure Linearizes (s : σ) (history : List (Event Op Reply)) (order : List (Entry Op Reply)) :
    Prop where
  nodup : (order.map Entry.id).Nodup
  legal : Legal spec s order
  invoked : ∀ e ∈ order, Event.invoke e.id e.op ∈ history
  answered : ∀ id op reply, Event.respond id op reply ∈ history → ⟨id, op, reply⟩ ∈ order
  realTime : ∀ a ∈ order, ∀ b ∈ order, Precedes history a.id b.id →
    ∃ front back, order = front ++ back ∧ a ∈ front ∧ b ∈ back

def Linearizable (s : σ) (history : List (Event Op Reply)) : Prop :=
  ∃ order, Linearizes spec s history order

/-- Histories with an order in which every request is committed once, while it
is open. -/
inductive Recorded (s : σ) : List (Event Op Reply) → List (Entry Op Reply) → Prop where
  | start : Recorded s [] []
  | invoke {history order} {id : Nat} {op : Op} (h : Recorded s history order)
      (hfresh : ∀ op', Event.invoke id op' ∉ history) :
      Recorded s (history ++ [.invoke id op]) order
  | commit {history order} {id : Nat} {op : Op} (h : Recorded s history order)
      (hinvoked : Event.invoke id op ∈ history) (hopen : id ∉ order.map Entry.id) :
      Recorded s history (order ++ [⟨id, op, (spec (final spec s order) op).2⟩])
  | respond {history order} {id : Nat} {op : Op} {reply : Reply} (h : Recorded s history order)
      (hdone : ⟨id, op, reply⟩ ∈ order) :
      Recorded s (history ++ [.respond id op reply]) order

variable {spec}

theorem final_concat (s : σ) (order : List (Entry Op Reply)) (e : Entry Op Reply) :
    final spec s (order ++ [e]) = (spec (final spec s order) e.op).1 := by
  simp [final]

theorem legal_concat {s : σ} {order : List (Entry Op Reply)} {e : Entry Op Reply}
    (h : Legal spec s order) (he : e.reply = (spec (final spec s order) e.op).2) :
    Legal spec s (order ++ [e]) := by
  induction order generalizing s with
  | nil => exact ⟨he, trivial⟩
  | cons a rest ih => exact ⟨h.1, ih h.2 he⟩

/-- A reply is the one of the sequential object in some state. -/
theorem Legal.exists_state {s : σ} {order : List (Entry Op Reply)} (h : Legal spec s order)
    {e : Entry Op Reply} (he : e ∈ order) : ∃ s', e.reply = (spec s' e.op).2 := by
  induction order generalizing s with
  | nil => exact absurd he List.not_mem_nil
  | cons a rest ih =>
    rcases List.mem_cons.mp he with rfl | he
    · exact ⟨s, h.1⟩
    · exact ih h.2 he

/-- An event at the end of the history matters only when it is the invocation. -/
theorem Precedes.of_concat {history : List (Event Op Reply)} {e : Event Op Reply} {a b : Nat}
    (h : Precedes (history ++ [e]) a b) (he : ∀ op, e ≠ .invoke b op) : Precedes history a b := by
  obtain ⟨before, after, heq, ha, op, hb⟩ := h
  rcases List.eq_nil_or_concat after with rfl | ⟨after', last, rfl⟩
  · exact absurd hb List.not_mem_nil
  · rw [List.concat_eq_append, ← List.append_assoc] at heq
    obtain ⟨hhist, hlast⟩ := List.append_inj' heq rfl
    obtain rfl := List.singleton_inj.mp hlast
    refine ⟨before, after', hhist, ha, op, ?_⟩
    rw [List.concat_eq_append] at hb
    rcases List.mem_append.mp hb with hb | hb
    · exact hb
    · exact absurd (List.mem_singleton.mp hb).symm (he op)

theorem Precedes.answered {history : List (Event Op Reply)} {a b : Nat}
    (h : Precedes history a b) : ∃ op reply, Event.respond a op reply ∈ history := by
  obtain ⟨before, after, rfl, ⟨op, reply, ha⟩, -⟩ := h
  exact ⟨op, reply, List.mem_append_left after ha⟩

theorem Recorded.linearizes {s : σ} {history : List (Event Op Reply)}
    {order : List (Entry Op Reply)} (h : Recorded spec s history order) :
    Linearizes spec s history order := by
  induction h with
  | start =>
    exact ⟨List.nodup_nil, trivial, by simp, by simp, by simp⟩
  | invoke h hfresh ih =>
    rename_i history order id op
    refine ⟨ih.nodup, ih.legal, fun e he => List.mem_append_left _ (ih.invoked e he), ?_, ?_⟩
    · intro id' op' reply' hr
      rcases List.mem_append.mp hr with hr | hr
      · exact ih.answered id' op' reply' hr
      · exact absurd (List.mem_singleton.mp hr) (by simp)
    · intro a ha b hb hprec
      refine ih.realTime a ha b hb (hprec.of_concat fun op' heq => ?_)
      -- The last event invokes a request that is not in the order yet.
      injection heq with hid _
      exact hfresh b.op (hid ▸ ih.invoked b hb)
  | commit h hinvoked hopen ih =>
    rename_i history order id op
    refine ⟨?_, legal_concat ih.legal rfl, ?_, ?_, ?_⟩
    · rw [List.map_append, List.map_singleton]
      refine List.nodup_append.mpr ⟨ih.nodup, List.nodup_singleton _, fun x hx y hy heq => ?_⟩
      have hid : x = id := heq.trans (List.mem_singleton.mp hy)
      exact hopen (hid ▸ hx)
    · intro e he
      rcases List.mem_append.mp he with he | he
      · exact ih.invoked e he
      · rw [List.mem_singleton.mp he]
        exact hinvoked
    · exact fun id' op' reply' hr => List.mem_append_left _ (ih.answered id' op' reply' hr)
    · intro a ha b hb hprec
      have haold : a ∈ order := by
        rcases List.mem_append.mp ha with ha | ha
        · exact ha
        · obtain ⟨op', reply', hr⟩ := hprec.answered
          rw [List.mem_singleton.mp ha] at hr
          exact absurd (List.mem_map_of_mem (ih.answered id op' reply' hr)) hopen
      rcases List.mem_append.mp hb with hb | hb
      · obtain ⟨front, back, rfl, hfront, hback⟩ := ih.realTime a haold b hb hprec
        exact ⟨front, back ++ [_], List.append_assoc .., hfront, List.mem_append_left _ hback⟩
      · exact ⟨order, [_], rfl, haold, hb⟩
  | respond h hdone ih =>
    rename_i history order id op reply
    refine ⟨ih.nodup, ih.legal, fun e he => List.mem_append_left _ (ih.invoked e he), ?_, ?_⟩
    · intro id' op' reply' hr
      rcases List.mem_append.mp hr with hr | hr
      · exact ih.answered id' op' reply' hr
      · injection List.mem_singleton.mp hr with hid hop hreply
        rw [hid, hop, hreply]
        exact hdone
    · intro a ha b hb hprec
      exact ih.realTime a ha b hb (hprec.of_concat fun op' heq => by simp at heq)

/-! ## What is seen from further away

A client in front of the object translates the requests and the replies.  It may
see a reply late or not at all, but it never sees an answer before it was given. -/

section Observes

variable {Op' Reply' : Type}

structure Observes (f : Op → Op') (g : Op → Reply → Reply') (history : List (Event Op Reply))
    (view : List (Event Op' Reply')) : Prop where
  invoked : ∀ id op, Event.invoke id op ∈ history → Event.invoke id (f op) ∈ view
  answered : ∀ id op' reply', Event.respond id op' reply' ∈ view →
    ∃ op reply, Event.respond id op reply ∈ history ∧ op' = f op ∧ reply' = g op reply
  precedes : ∀ a b, Precedes view a b → Precedes history a b

variable {σ' : Type} {spec' : σ' → Op' → σ' × Reply'} {f : Op → Op'} {g : Op → Reply → Reply'}
  {R : σ → σ' → Prop} {P : Op → Prop}

/-- The translated object gives the translated replies. -/
theorem Legal.translate
    (hstep : ∀ s s' op, P op → R s s' →
      R (spec s op).1 (spec' s' (f op)).1 ∧ g op (spec s op).2 = (spec' s' (f op)).2)
    {s : σ} {s' : σ'} (hs : R s s') {order : List (Entry Op Reply)} (hP : ∀ e ∈ order, P e.op)
    (h : Legal spec s order) :
    Legal spec' s' (order.map fun e => ⟨e.id, f e.op, g e.op e.reply⟩) := by
  induction order generalizing s s' with
  | nil => trivial
  | cons e rest ih =>
    obtain ⟨hnext, hreply⟩ := hstep s s' e.op (hP e List.mem_cons_self) hs
    refine ⟨?_, ih hnext (fun d hd => hP d (List.mem_cons_of_mem e hd)) h.2⟩
    rw [← hreply, ← h.1]

theorem Linearizes.observes
    (hstep : ∀ s s' op, P op → R s s' →
      R (spec s op).1 (spec' s' (f op)).1 ∧ g op (spec s op).2 = (spec' s' (f op)).2)
    {s : σ} {s' : σ'} (hs : R s s') {history : List (Event Op Reply)}
    {view : List (Event Op' Reply')} (hview : Observes f g history view)
    {order : List (Entry Op Reply)} (hP : ∀ e ∈ order, P e.op)
    (h : Linearizes spec s history order) :
    Linearizes spec' s' view (order.map fun e => ⟨e.id, f e.op, g e.op e.reply⟩) where
  nodup := by
    rw [List.map_map]
    exact h.nodup
  legal := h.legal.translate hstep hs hP
  invoked e he := by
    obtain ⟨d, hd, rfl⟩ := List.mem_map.mp he
    exact hview.invoked d.id d.op (h.invoked d hd)
  answered id op' reply' hr := by
    obtain ⟨op, reply, hgiven, rfl, rfl⟩ := hview.answered id op' reply' hr
    exact List.mem_map.mpr ⟨_, h.answered id op reply hgiven, rfl⟩
  realTime a ha b hb hprec := by
    obtain ⟨c, hc, rfl⟩ := List.mem_map.mp ha
    obtain ⟨d, hd, rfl⟩ := List.mem_map.mp hb
    obtain ⟨front, back, rfl, hfront, hback⟩ :=
      h.realTime c hc d hd (hview.precedes c.id d.id hprec)
    exact ⟨_, _, List.map_append, List.mem_map.mpr ⟨c, hfront, rfl⟩,
      List.mem_map.mpr ⟨d, hback, rfl⟩⟩

end Observes

end Linearize
end DistributedDb
