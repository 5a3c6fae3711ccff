import ZephyrPubSub.Recycling

/-!
# What the handlers read

The framework passes pointers on: a handler reads the message where it lies.
Owners write a message they have not published yet, or a static one that nobody
refers to. Nobody writes what a handler, a queue or the dispatch still needs,
although the slabs hand out the same addresses again.
-/

namespace ZephyrPubSub

open Function Runs Outcome

section
variable {B S : Type} [DecidableEq B] [DecidableEq S] {c : Cfg S} {s s' : Sys B S} {a : Act B S}

theorem trans_tag (ht : Trans c s a s') {p : Pkt B} (hp : Issues s a p) : p.tag < s'.nextTag := by
  rw [hp.tag]
  cases ht with
  | publish | publishToCallback | publishToQueue => exact Nat.lt_succ_self _
  | mem h => cases h <;> exact hp.elim
  | _ => exact hp.elim

omit [DecidableEq B] [DecidableEq S] in
theorem carries_mem {μ : Mem} {p : Pkt B} (h : Carries { s with mem := μ } p) : Carries s p := by
  cases h with
  | fifo h => exact .fifo h
  | work h => exact .work h
  | queue h => exact .queue h
  | svc h => exact .svc h
  | call h => exact .call h

/-- An allocation changes the memory only. -/
theorem newMsg_step_mem {m : Msg} {i : MsgId} {k : AllocId} (h : step c (s.renew m) (.newMsg m i k) = .ok s') :
    s' = { s with mem := s'.mem } ∧ s'.mem.owned = update s.mem.owned m true := by
  obtain ⟨μ, hμ, he⟩ := bind_ok h
  cases he
  exact ⟨rfl, (Mem.newMsg_ok hμ).2.2.2.1⟩

end

/-! ## Messages with their contents -/

/-- The system on memory slabs with what its messages hold. -/
structure Payload (B S K D : Type) where
  pool : Pool B S K
  /-- What lies behind the header at an address. -/
  data : Msg → D
  /-- Each publication with what the message held when it was published. -/
  sent : List (Pkt B × D)
  /-- Each call of a handler with what it reads. -/
  seen : List (S × Pkt B × D)

inductive PayloadAct (B S D : Type) where
  | pool (a : PoolAct B S)
  | write (m : Msg) (d : D)

def Life.atRest : Life → Bool
  | .live h => h.refCnt = 0
  | _ => false

section
variable {B S K D : Type}

def Event.publication : Event B S → Option (Pkt B)
  | .published q => some q
  | .handed .. => none

def Event.call : Event B S → Option (S × Pkt B)
  | .published _ => none
  | .handed x q => some (x, q)

def Payload.note (s : Payload B S K D) : Event B S → Payload B S K D
  | .published p => { s with sent := s.sent ++ [(p, s.data p.msg)] }
  | .handed x p => { s with seen := s.seen ++ [(x, p, s.data p.msg)] }

/-- Owners write a message that is not published, or at rest. -/
def Payload.writable (s : Payload B S K D) (m : Msg) : Bool :=
  s.pool.sys.mem.owned m || (s.pool.sys.mem.life m).atRest

variable [DecidableEq B] [DecidableEq S] [DecidableEq K] [Fintype K] (p : Pools K S)

def payloadStep (s : Payload B S K D) : PayloadAct B S D → Except Stop (Payload B S K D)
  | .pool a => do
    let pool ← poolStep p s.pool a
    .ok ((pool.sys.log.drop s.pool.sys.log.length).foldl Payload.note { s with pool := pool })
  | .write m d => if s.writable m then .ok { s with data := update s.data m d } else .error .misuse

structure Payload.Init (s : Payload B S K D) : Prop where
  pool : s.pool.Init p
  sent : s.sent = []
  seen : s.seen = []

end

/-! ## Nobody writes what is read -/

section
variable {B S K D : Type} [DecidableEq B] [DecidableEq S] [DecidableEq K] [Fintype B] [Fintype S] [Fintype K]
variable {p : Pools K S} {g : Msg → Nat} {u u' : Pool B S K} {t : Sys B S}

/-- A system of messages in step with the slabs, each of its messages carried for one publication. -/
def Shared (p : Pools K S) (u : Pool B S K) : Prop := ∃ g t, Recycles p g u t ∧ Sole t

omit [DecidableEq B] [DecidableEq S] [DecidableEq K] [Fintype K] in
theorem shared_init (h : u.Init p) : Shared p u := ⟨_, _, recycles_init h, sole_init h.sys⟩

theorem Shared.step (h : Shared p u) {a : PoolAct B S} (hs : poolStep p u a = .ok u') : Shared p u' := by
  obtain ⟨g, t, hr, hsole⟩ := h
  obtain ⟨g', t', hr', ⟨-, rfl⟩ | ⟨a', -, ha'⟩⟩ := hr.step hs
  · exact ⟨g', t', hr', hsole⟩
  · exact ⟨g', t', hr', hsole.trans hr.accounted (step_trans ha')⟩

omit [DecidableEq K] [Fintype K] in
/-- What somebody refers to is not at rest. -/
theorem Shared.busy (h : Shared p u) {m : Msg} (hm : 0 < refs u.sys m) : (u.sys.mem.life m).atRest = false := by
  obtain ⟨g, t, hr, -⟩ := h
  cases hl : u.sys.mem.life m with
  | live hd =>
    have hcnt := hr.accounted.refCnt (m := latest g m) (by rw [← hr.follows.2.life, hl])
    rw [← hr.refs] at hcnt
    unfold Life.atRest
    rw [decide_eq_false_iff_not]
    omega
  | unused => rfl
  | freed hd => rfl

omit [DecidableEq B] [DecidableEq S] [Fintype B] [Fintype S] in
theorem carries_image {f : Msg → Msg} {μ : Mem} {q : Pkt B} (h : Carries (t.image f μ) q) :
    ∃ r, Carries t r ∧ q = r.map f := by
  have hmem : ∀ {l : List (Pkt B)}, q ∈ l.map (Pkt.map f) → ∃ r ∈ l, q = r.map f := by
    intro l hl
    obtain ⟨r, hr, rfl⟩ := List.mem_map.mp hl
    exact ⟨r, hr, rfl⟩
  cases h with
  | fifo h =>
    obtain ⟨r, hr, he⟩ := hmem h
    exact ⟨r, .fifo hr, he⟩
  | queue h =>
    obtain ⟨r, hr, he⟩ := hmem h
    exact ⟨r, .queue hr, he⟩
  | @work b h =>
    have hw : ((t.work b).map f).pkt = (t.work b).pkt.map (Pkt.map f) := by cases t.work b <;> rfl
    rw [show (t.image f μ).work b = (t.work b).map f from rfl, hw] at h
    obtain ⟨r, hr, he⟩ := Option.map_eq_some_iff.mp h
    exact ⟨r, .work hr, he.symm⟩
  | @svc x h =>
    have hv : ((t.svc x).map f).pkt = (t.svc x).pkt.map (Pkt.map f) := by cases t.svc x <;> rfl
    rw [show (t.image f μ).svc x = (t.svc x).map f from rfl, hv] at h
    obtain ⟨r, hr, he⟩ := Option.map_eq_some_iff.mp h
    exact ⟨r, .svc hr, he.symm⟩
  | @call x h =>
    obtain ⟨e, he, heq⟩ := List.mem_map.mp (show (x, q) ∈ t.calls.map (callMap f) from h)
    exact ⟨e.2, .call he, (congrArg Prod.snd heq).symm⟩

omit [DecidableEq K] [Fintype K] in
theorem Shared.unowned (h : Shared p u) {q : Pkt B} (hq : Carries u.sys q) : u.sys.mem.owned q.msg = false := by
  obtain ⟨g, t, hr, hsole⟩ := h
  have hc := allCurrent hr.follows hr.accounted
  rw [hr.follows.1] at hq
  obtain ⟨r, hr', rfl⟩ := carries_image hq
  have := hc r hr'
  unfold IsCurrent at this
  rw [hr.follows.2.owned, show latest g (r.map address).msg = r.msg from this.symm]
  exact hsole.unowned r hr'

/-- While somebody refers to a message its owner does not get it back. -/
theorem Shared.step_unowned (h : Shared p u) {a : PoolAct B S} (hs : poolStep p u a = .ok u') {m : Msg}
    (hm : 0 < refs u.sys m) (ho : u.sys.mem.owned m = false) : u'.sys.mem.owned m = false := by
  obtain ⟨g, t, hr, -⟩ := h
  cases a with
  | newMsg al i size pick =>
    obtain rfl | ⟨κ, b, -, hb, -, hstep⟩ := poolStep_newMsg_ok hs
    · exact ho
    · have hne : m ≠ msgAt p.k b := by
        rintro rfl
        have := (hr.used (hr.kept.sub κ b hb)).1.mp hb
        omega
      rw [(newMsg_step_mem hstep).2, update_of_ne hne]
      exact ho
  | sys a =>
    obtain ⟨hne, hstep, -⟩ := hr.kept.sys hs
    obtain ⟨t', ht', hf⟩ := (follows_step (c := p.cfg) hr.follows (allCurrent hr.follows hr.accounted) a hne).ok hstep
    rw [hf.2.owned, Bool.eq_false_iff]
    intro ho'
    rcases trans_acquired hr.accounted (step_trans ht') ho' with ho₁ | h0
    · rw [← hr.follows.2.owned, ho] at ho₁
      cases ho₁
    · rw [hr.refs] at hm
      omega

omit [DecidableEq K] [Fintype K] in
theorem Shared.not_writable {s : Payload B S K D} (h : Shared p s.pool) {m : Msg} (hm : 0 < refs s.pool.sys m)
    (ho : s.pool.sys.mem.owned m = false) : s.writable m = false := by
  unfold Payload.writable
  rw [ho, h.busy hm]
  rfl

/-! ## Every step -/

/-- Every reader finds what was published. -/
structure Intact (s : Payload B S K D) : Prop where
  carried : ∀ q, Carries s.pool.sys q → (q, s.data q.msg) ∈ s.sent
  seen : ∀ x q d, (x, q, d) ∈ s.seen → (q, d) ∈ s.sent
  tag : ∀ q d, (q, d) ∈ s.sent → q.tag < s.pool.sys.nextTag
  unique : ∀ q d d', (q, d) ∈ s.sent → (q, d') ∈ s.sent → d = d'

variable {s s' : Payload B S K D}

section
omit [DecidableEq B] [DecidableEq S] [DecidableEq K] [Fintype B] [Fintype S] [Fintype K]

theorem Intact.silent (h : Intact s) (hc : ∀ q, Carries u.sys q → Carries s.pool.sys q)
    (ht : s.pool.sys.nextTag ≤ u.sys.nextTag) : Intact { s with pool := u } :=
  ⟨fun q hq => h.carried q (hc q hq), h.seen, fun q d hq => Nat.lt_of_lt_of_le (h.tag q d hq) ht, h.unique⟩

theorem Intact.handed (h : Intact s) {x : S} {q : Pkt B} (hq : (q, s.data q.msg) ∈ s.sent) :
    Intact (s.note (.handed x q)) := by
  refine ⟨h.carried, ?_, h.tag, h.unique⟩
  intro y r d hr
  rcases List.mem_append.mp hr with hr | hr
  · exact h.seen y r d hr
  · cases List.mem_singleton.mp hr
    exact hq

theorem Intact.published (h : Intact s) {q : Pkt B} (hc : ∀ r, Carries u.sys r → Carries s.pool.sys r ∨ r = q)
    (hq : q.tag = s.pool.sys.nextTag) (ht : s.pool.sys.nextTag < u.sys.nextTag) :
    Intact (Payload.note { s with pool := u } (.published q)) := by
  have hnew : ∀ r d, (r, d) ∈ s.sent → r ≠ q := by
    rintro r d hr rfl
    exact absurd (h.tag r d hr) (by omega)
  have hmem : ∀ {r d}, (r, d) ∈ s.sent ++ [(q, s.data q.msg)] → (r, d) ∈ s.sent ∨ r = q ∧ d = s.data q.msg := by
    intro r d hr
    rcases List.mem_append.mp hr with hr | hr
    · exact .inl hr
    · cases List.mem_singleton.mp hr
      exact .inr ⟨rfl, rfl⟩
  constructor
  · intro r hr
    rcases hc r hr with hr | rfl
    · exact List.mem_append_left _ (h.carried r hr)
    · exact List.mem_append_right _ (List.mem_singleton.mpr rfl)
  · intro x r d hr
    exact List.mem_append_left _ (h.seen x r d hr)
  · intro r d hr
    rcases hmem hr with hr | ⟨rfl, -⟩
    · exact Nat.lt_trans (h.tag r d hr) ht
    · exact hq ▸ ht
  · intro r d d' hr hr'
    rcases hmem hr with hr₁ | ⟨rfl, rfl⟩
    · rcases hmem hr' with hr₂ | ⟨rfl, -⟩
      · exact h.unique r d d' hr₁ hr₂
      · exact absurd rfl (hnew r d hr₁)
    · rcases hmem hr' with hr₂ | ⟨-, rfl⟩
      · exact absurd rfl (hnew r d' hr₂)
      · rfl

end

theorem Intact.pool (h : Intact s) (hsh : Shared p s.pool) {a : PoolAct B S}
    (hs : payloadStep p s (.pool a) = .ok s') : Intact s' := by
  obtain ⟨u, hu, hs⟩ := bind_ok hs
  cases hs
  obtain ⟨g, t, hr, -⟩ := hsh
  cases a with
  | newMsg al i size pick =>
    obtain rfl | ⟨κ, b, -, -, -, hstep⟩ := poolStep_newMsg_ok hu
    · rw [List.drop_length]
      exact h
    · have hsys := (newMsg_step_mem hstep).1
      have hlog : u.sys.log = s.pool.sys.log := by rw [hsys]
      rw [hlog, List.drop_length]
      apply h.silent
      · intro q hq
        rw [hsys] at hq
        exact carries_mem hq
      · rw [hsys]
  | sys a =>
    obtain ⟨-, hstep, -⟩ := hr.kept.sys hu
    have ht := step_trans hstep
    obtain ⟨es, hlog, hes⟩ := trans_log ht
    have hle := (trans_later ht).2
    have hc := fun q => carries_from (p := q) ht
    rw [hlog, List.drop_left]
    cases hes with
    | silent hno => exact h.silent (fun q hq => (hc q hq).resolve_right (hno q)) hle
    | handed hno hq =>
      exact (h.silent (fun q hq => (hc q hq).resolve_right (hno q)) hle).handed (h.carried _ hq)
    | @published q hq =>
      exact h.published (fun r hr => (hc r hr).imp_right fun hi => hi.unique hq) hq.tag (hq.tag ▸ trans_tag ht hq)
    | @called x q hq =>
      have hp := h.published (u := u) (fun r hr => (hc r hr).imp_right fun hi => hi.unique hq) hq.tag
        (hq.tag ▸ trans_tag ht hq)
      exact hp.handed (List.mem_append_right _ (List.mem_singleton.mpr rfl))

theorem Intact.write (h : Intact s) (hsh : Shared p s.pool) {m : Msg} {d : D}
    (hs : payloadStep p s (.write m d) = .ok s') : Intact s' := by
  simp only [payloadStep] at hs
  split at hs
  · rename_i hw
    cases hs
    refine ⟨?_, h.seen, h.tag, h.unique⟩
    intro q hq
    have hne : q.msg ≠ m := by
      rintro rfl
      rw [hsh.not_writable hq.refs (hsh.unowned hq)] at hw
      cases hw
    show (q, update s.data m d q.msg) ∈ s.sent
    rw [update_of_ne hne]
    exact h.carried q hq
  · cases hs

omit [DecidableEq B] [DecidableEq S] [DecidableEq K] [Fintype B] [Fintype S] [Fintype K] in
theorem noted (es : List (Event B S)) : ∀ s : Payload B S K D,
    (es.foldl Payload.note s).pool = s.pool ∧ (es.foldl Payload.note s).data = s.data ∧
      (es.foldl Payload.note s).sent.map Prod.fst = s.sent.map Prod.fst ++ es.filterMap Event.publication ∧
      (es.foldl Payload.note s).seen.map (fun e => (e.1, e.2.1)) =
        s.seen.map (fun e => (e.1, e.2.1)) ++ es.filterMap Event.call := by
  induction es with
  | nil => exact fun s => ⟨rfl, rfl, (List.append_nil _).symm, (List.append_nil _).symm⟩
  | cons e es ih =>
    intro s
    obtain ⟨hpool, hdata, hsent, hseen⟩ := ih (s.note e)
    rw [List.foldl_cons, hpool, hdata, hsent, hseen]
    cases e <;> simp [Payload.note, Event.publication, Event.call, List.filterMap_cons]

structure Recorded (s : Payload B S K D) : Prop where
  sent : s.sent.map Prod.fst = s.pool.sys.log.filterMap Event.publication
  seen : s.seen.map (fun e => (e.1, e.2.1)) = s.pool.sys.log.filterMap Event.call

omit [Fintype B] [Fintype S] in
theorem PoolKept.log (h : PoolKept p u.sys.mem u.free) {a : PoolAct B S} (hs : poolStep p u a = .ok u') :
    ∃ es, u'.sys.log = u.sys.log ++ es := by
  cases a with
  | newMsg al i size pick =>
    refine ⟨[], ?_⟩
    obtain rfl | ⟨κ, b, -, -, -, hstep⟩ := poolStep_newMsg_ok hs
    · exact (List.append_nil _).symm
    · rw [(newMsg_step_mem hstep).1, List.append_nil]
  | sys a =>
    obtain ⟨es, hes, -⟩ := trans_log (step_trans (h.sys hs).2.1)
    exact ⟨es, hes⟩

omit [Fintype B] [Fintype S] in
theorem Recorded.step (h : Recorded s) (hk : PoolKept p s.pool.sys.mem s.pool.free) {a : PayloadAct B S D}
    (hs : payloadStep p s a = .ok s') : Recorded s' := by
  cases a with
  | pool a =>
    obtain ⟨u, hu, hs⟩ := bind_ok hs
    cases hs
    obtain ⟨es, hes⟩ := hk.log hu
    obtain ⟨hpool, -, hsent, hseen⟩ := noted es { s with pool := u }
    rw [hes, List.drop_left]
    constructor
    · rw [hsent, hpool, hes, List.filterMap_append]
      exact congrArg (· ++ _) h.sent
    · rw [hseen, hpool, hes, List.filterMap_append]
      exact congrArg (· ++ _) h.seen
  | write m d =>
    simp only [payloadStep] at hs
    split at hs
    · cases hs
      exact ⟨h.sent, h.seen⟩
    · cases hs

theorem Intact.step (h : Intact s) (hsh : Shared p s.pool) {a : PayloadAct B S D} (hs : payloadStep p s a = .ok s') :
    Intact s' ∧ Shared p s'.pool := by
  cases a with
  | pool a =>
    refine ⟨h.pool hsh hs, ?_⟩
    obtain ⟨u, hu, hs⟩ := bind_ok hs
    cases hs
    rw [(noted _ _).1]
    exact hsh.step hu
  | write m d =>
    refine ⟨h.write hsh hs, ?_⟩
    simp only [payloadStep] at hs
    split at hs
    · cases hs
      exact hsh
    · cases hs

structure PayloadInv (p : Pools K S) (s : Payload B S K D) : Prop where
  intact : Intact s
  recorded : Recorded s
  shared : Shared p s.pool

theorem PayloadInv.step (h : PayloadInv p s) {a : PayloadAct B S D} (hs : payloadStep p s a = .ok s') :
    PayloadInv p s' := by
  obtain ⟨hi, hsh⟩ := h.intact.step h.shared hs
  obtain ⟨g, t, hr, -⟩ := h.shared
  exact ⟨hi, h.recorded.step hr.kept hs, hsh⟩

omit [DecidableEq B] [DecidableEq S] [DecidableEq K] [Fintype K] in
theorem payloadInv_init (h : s.Init p) : PayloadInv p s := by
  refine ⟨⟨?_, ?_, ?_, ?_⟩, ⟨?_, ?_⟩, shared_init h.pool⟩
  · exact fun q hq => absurd hq (not_carries_init h.pool.sys q)
  · intro x q d hq
    rw [h.seen] at hq
    cases hq
  · intro q d hq
    rw [h.sent] at hq
    cases hq
  · intro q d d' hq
    rw [h.sent] at hq
    cases hq
  · rw [h.sent, h.pool.sys.log]
    rfl
  · rw [h.seen, h.pool.sys.log]
    rfl

theorem payloadInv_reachable (h : Reachable (payloadStep p) (Payload.Init p) (fun _ _ => True) s) : PayloadInv p s :=
  h.invariant (I := PayloadInv p) (fun _ => payloadInv_init) fun _ _ _ hi _ hs => hi.step hs

/-- What somebody refers to is not written until everybody has let go of it. -/
theorem PayloadInv.kept (h : PayloadInv p s) {m : Msg} (ho : s.pool.sys.mem.owned m = false)
    (hr : Run (payloadStep p) (fun s _ => 0 < refs s.pool.sys m) s s') : s'.data m = s.data m := by
  have hinv := hr.invariant (I := fun s' => PayloadInv p s' ∧ s'.pool.sys.mem.owned m = false ∧ s'.data m = s.data m)
    ?_ ⟨h, ho, rfl⟩
  · exact hinv.2.2
  rintro s₁ a s₂ ⟨h₁, ho₁, hd₁⟩ hm hs
  refine ⟨h₁.step hs, ?_⟩
  rw [← hd₁]
  cases a with
  | pool a =>
    obtain ⟨u, hu, hs⟩ := bind_ok hs
    cases hs
    obtain ⟨hpool, hdata, -⟩ := noted (u.sys.log.drop s₁.pool.sys.log.length) { s₁ with pool := u }
    rw [hpool, hdata]
    exact ⟨h₁.shared.step_unowned hu hm ho₁, rfl⟩
  | write k d =>
    simp only [payloadStep] at hs
    split at hs
    · rename_i hw
      cases hs
      refine ⟨ho₁, update_of_ne ?_ _ _⟩
      rintro rfl
      rw [h₁.shared.not_writable hm ho₁] at hw
      cases hw
    · cases hs

/-- Each handler that was called read what its message held when it was
published. So does whoever still handles the message or has acquired it, as long
as somebody refers to it. -/
theorem payload_intact (h : Reachable (payloadStep p) (Payload.Init p) (fun _ _ => True) s) :
    s.sent.map Prod.fst = s.pool.sys.log.filterMap Event.publication ∧
    s.seen.map (fun e => (e.1, e.2.1)) = s.pool.sys.log.filterMap Event.call ∧
    (∀ x q d, (x, q, d) ∈ s.seen → ∀ d', (q, d') ∈ s.sent ↔ d' = d) ∧
    ∀ q, Carries s.pool.sys q → ∀ s', Run (payloadStep p) (fun s _ => 0 < refs s.pool.sys q.msg) s s' →
      ∀ d, (q, d) ∈ s.sent ↔ d = s'.data q.msg := by
  have hinv := payloadInv_reachable h
  have hsent : ∀ {q d}, (q, d) ∈ s.sent → ∀ d', (q, d') ∈ s.sent ↔ d' = d := by
    intro q d hq d'
    refine ⟨fun hq' => hinv.intact.unique q d' d hq' hq, ?_⟩
    rintro rfl
    exact hq
  refine ⟨hinv.recorded.sent, hinv.recorded.seen, fun x q d hx => hsent (hinv.intact.seen x q d hx), ?_⟩
  intro q hq s' hr
  rw [hinv.kept (hinv.shared.unowned hq) hr]
  exact hsent (hinv.intact.carried q hq)

end

/-- The one block is filled, published and handled twice. -/
def filledTwice : List (PayloadAct Unit (Fin 2) Nat) :=
  .pool (.newMsg (.linkSection 0) 3 8 0) :: .write 0x2008 7 :: publishedOnce.map (fun a => .pool (.sys a)) ++
    .pool (.newMsg (.linkSection 0) 3 8 0) :: .write 0x2008 9 :: publishedOnce.map fun a => .pool (.sys a)

def filledInit : Payload Unit (Fin 2) Unit Nat := ⟨oneBlockInit, fun _ => 0, [], []⟩

theorem payload_intact_twice : ∃ s, exec (payloadStep oneBlock) filledInit filledTwice = .ok s ∧
    s.seen.map (fun e => (e.1, e.2.2)) = [(0, 7), (1, 7), (0, 9), (1, 9)] ∧
    ∀ x q d, (x, q, d) ∈ s.seen → ∀ d', (q, d') ∈ s.sent ↔ d' = d := by
  have hx : ∃ s, exec (payloadStep oneBlock) filledInit filledTwice = .ok s ∧
      s.seen.map (fun e => (e.1, e.2.2)) = [(0, 7), (1, 7), (0, 9), (1, 9)] := ⟨_, rfl, rfl⟩
  obtain ⟨s, hs, hseen⟩ := hx
  have hr := Run.of_exec (P := fun _ _ => True) (payloadStep oneBlock) filledTwice _ _ hs fun _ _ => trivial
  exact ⟨s, hs, hseen, (payload_intact ⟨filledInit, ⟨oneBlock_init, rfl, rfl⟩, hr⟩).2.2.1⟩

end ZephyrPubSub
