import ZephyrPubSub.System
import ZephyrPubSub.Outcome

/-!
# What a step can do

`Trans` lists the outcomes of `step` that do not fail, one constructor per
branch of the source, each with its guards and the state it leaves.
-/

namespace ZephyrPubSub

open Lists Function Outcome

/-- Steps of the message owners. -/
inductive MemStep {B S : Type} (n : Nat) (μ : Mem) : Act B S → Mem → Prop
  | newMsg {m id a μ'} : μ.newMsg n m id a = .ok μ' → MemStep n μ (.newMsg m id a) μ'
  | staticMsgInit {m id a μ'} : μ.staticMsgInit m id a = .ok μ' → MemStep n μ (.staticMsgInit m id a) μ'
  | acquireStatic {m h μ'} : μ.life m = .live h →
      h.allocId = allocIdStaticMsg ∨ h.allocId = allocIdCallbackMsg → h.refCnt = 0 →
      μ.acquireMsg m = .ok μ' →
      MemStep n μ (.acquireStatic m) { μ' with owned := update μ'.owned m true }
  | releaseUnpublished {m μ'} : μ.owned m = true → μ.releaseMsg n m = .ok μ' →
      MemStep n μ (.releaseUnpublished m) (μ'.transfer m)
  | acquireExtra {m h μ'} : μ.life m = .live h → 0 < h.refCnt → μ.acquireMsg m = .ok μ' →
      MemStep n μ (.acquireExtra m) { μ' with extra := update μ'.extra m (μ'.extra m + 1) }
  | releaseExtra {m μ'} : 0 < μ.extra m → μ.releaseMsg n m = .ok μ' →
      MemStep n μ (.releaseExtra m) { μ' with extra := update μ'.extra m (μ'.extra m - 1) }

section
variable {B S : Type} [DecidableEq B] [DecidableEq S]

inductive Trans (c : Cfg S) (s : Sys B S) : Act B S → Sys B S → Prop
  | workQueued {b} : s.work b = .queued → Trans c s (.work b) { s with work := update s.work b .get }
  | workGetNone {b} : s.work b = .get → s.fifo b = [] →
      Trans c s (.work b) { s with work := update s.work b .reset }
  | workGet {b p ps id} : s.work b = .get → s.fifo b = p :: ps → s.mem.getMsgId p.msg = .ok id →
      Trans c s (.work b)
        { s with fifo := update s.fifo b ps, work := update s.work b (.lock p id) }
  | workLock {b p id} : s.work b = .lock p id → s.mutex b = none →
      Trans c s (.work b)
        { s with
          mutex := update s.mutex b (some .work)
          work := update s.work b (.scan p id (s.subscribers b).head? none) }
  | scanEnd {b p id h} : s.work b = .scan p id none h →
      Trans c s (.work b)
        { s with mutex := update s.mutex b none, work := update s.work b (.release p) }
  | scanSkip {b p id x h} : s.work b = .scan p id (some x) h → ¬ s.wants c x id →
      Trans c s (.work b) { s with work := update s.work b (.scan p id (s.nextSub x) none) }
  | scanCallback {b p id x h} : s.work b = .scan p id (some x) h → s.wants c x id →
      c.rxType x = .callback →
      Trans c s (.work b)
        { s with
          log := s.log ++ [.handed x p]
          work := update s.work b (.scan p id (s.nextSub x) (some x)) }
  | scanMsgq {b p id x h μ} : s.work b = .scan p id (some x) h → s.wants c x id →
      c.rxType x = .msgq → s.mem.acquireMsg p.msg = .ok μ →
      Trans c s (.work b) { s with mem := μ, work := update s.work b (.put p id x (s.nextSub x)) }
  | scanFifo {b p id x h μ} : s.work b = .scan p id (some x) h → s.wants c x id →
      c.rxType x = .fifo → s.mem.acquireMsg p.msg = .ok μ →
      Trans c s (.work b)
        { s with
          mem := μ
          queue := update s.queue x (s.queue x ++ [p])
          mutex := update s.mutex b none
          work := update s.work b (.release p) }
  | put {b p id x tmp} : s.work b = .put p id x tmp → (s.queue x).length < c.maxMsgs x →
      Trans c s (.work b)
        { s with
          queue := update s.queue x (s.queue x ++ [p])
          work := update s.work b (.scan p id tmp none) }
  | workRelease {b p μ} : s.work b = .release p → s.mem.releaseMsg c.numAllocators p.msg = .ok μ →
      Trans c s (.work b) { s with mem := μ, work := update s.work b .get }
  | workReset {b} : s.work b = .reset → Trans c s (.work b) { s with work := update s.work b .submit }
  | workSubmit {b} : s.work b = .submit →
      Trans c s (.work b)
        { s with work := update s.work b (if s.fifo b = [] then .armed else .queued) }
  | takeMsgq {x p ps id} : s.svc x = .idle → c.rxType x = .msgq → s.queue x = p :: ps →
      s.mem.getMsgId p.msg = .ok id →
      Trans c s (.svc x)
        { s with queue := update s.queue x ps, svc := update s.svc x (.ready p id) }
  | takeFifo {x p ps id} : s.svc x = .idle → c.rxType x = .fifo → s.queue x = p :: ps →
      s.mem.getMsgId p.msg = .ok id →
      Trans c s (.svc x) { s with queue := update s.queue x ps, svc := update s.svc x (.got p id) }
  | gotPublic {x p id b} : s.svc x = .got p id → id ≤ c.maxPubMsgId x → s.broker x = some b →
      Trans c s (.svc x) { s with svc := update s.svc x (.lock p id b) }
  | gotPrivate {x p id} : s.svc x = .got p id → ¬ id ≤ c.maxPubMsgId x →
      Trans c s (.svc x) { s with svc := update s.svc x (.ready p id) }
  | svcLock {x p id b} : s.svc x = .lock p id b → s.mutex b = none →
      Trans c s (.svc x)
        { s with
          mutex := update s.mutex b (some (.svc x))
          svc := update s.svc x (.walk p id b (s.nextSub x)) }
  | walkEnd {x p id b} : s.svc x = .walk p id b none →
      Trans c s (.svc x)
        { s with mutex := update s.mutex b none, svc := update s.svc x (.ready p id) }
  | walkSkip {x p id b n} : s.svc x = .walk p id b (some n) → ¬ s.wants c n id →
      Trans c s (.svc x) { s with svc := update s.svc x (.walk p id b (s.nextSub n)) }
  | walkGive {x p id b n μ} : s.svc x = .walk p id b (some n) → s.wants c n id → c.rxType n = .fifo →
      s.mem.acquireMsg p.msg = .ok μ →
      Trans c s (.svc x)
        { s with
          mem := μ
          queue := update s.queue n (s.queue n ++ [p])
          mutex := update s.mutex b none
          svc := update s.svc x (.ready p id) }
  | handle {x p id} : s.svc x = .ready p id →
      Trans c s (.svc x) { s with log := s.log ++ [.handed x p], svc := update s.svc x (.running p) }
  | svcRelease {x p μ} : s.svc x = .running p → s.mem.releaseMsg c.numAllocators p.msg = .ok μ →
      Trans c s (.svc x) { s with mem := μ, svc := update s.svc x .idle }
  | publish {b m} : s.mem.owned m = true →
      Trans c s (.publish b m)
        { s with
          mem := s.mem.transfer m
          fifo := update s.fifo b (s.fifo b ++ [⟨m, s.nextTag, some b⟩])
          work := update s.work b (wake (s.work b))
          nextTag := s.nextTag + 1
          log := s.log ++ [.published ⟨m, s.nextTag, some b⟩] }
  | publishToCallback {x m id} : s.mem.owned m = true → s.mem.getMsgId m = .ok id →
      c.maxPubMsgId x < id → c.rxType x = .callback →
      Trans c s (.publishTo x m)
        { s with
          mem := s.mem.transfer m
          calls := s.calls ++ [(x, ⟨m, s.nextTag, none⟩)]
          nextTag := s.nextTag + 1
          log := s.log ++ [.published ⟨m, s.nextTag, none⟩, .handed x ⟨m, s.nextTag, none⟩] }
  | publishToQueue {x m id} : s.mem.owned m = true → s.mem.getMsgId m = .ok id →
      c.maxPubMsgId x < id → c.rxType x ≠ .callback →
      (c.rxType x = .msgq → (s.queue x).length < c.maxMsgs x) →
      Trans c s (.publishTo x m)
        { s with
          mem := s.mem.transfer m
          queue := update s.queue x (s.queue x ++ [⟨m, s.nextTag, none⟩])
          nextTag := s.nextTag + 1
          log := s.log ++ [.published ⟨m, s.nextTag, none⟩] }
  | callReturn {x p μ} : (x, p) ∈ s.calls → s.mem.releaseMsg c.numAllocators p.msg = .ok μ →
      Trans c s (.callReturn x p) { s with mem := μ, calls := s.calls.erase (x, p) }
  | addStart {b x} : s.admin x = .idle → s.broker x = none →
      Trans c s (.addStart b x)
        { s with broker := update s.broker x (some b), admin := update s.admin x .adding }
  | addLink {x b} : s.admin x = .adding → s.broker x = some b → s.Lockable b →
      Trans c s (.addLink x)
        { s with
          subscribers := update s.subscribers b
            (insertSubscriber c.rxType s.priority (s.subscribers b) x)
          admin := update s.admin x .idle }
  | removeUnlink {x b} : s.admin x = .idle → s.broker x = some b → s.Lockable b →
      Trans c s (.removeUnlink x)
        { s with
          subscribers := update s.subscribers b ((s.subscribers b).erase x)
          admin := update s.admin x .removing }
  | removeClear {x} : s.admin x = .removing →
      Trans c s (.removeClear x)
        { s with broker := update s.broker x none, admin := update s.admin x .idle }
  | setPriority {x n} :
      Trans c s (.setPriority x n) { s with priority := update s.priority x n }
  | mem {a μ} : MemStep c.numAllocators s.mem a μ → Trans c s a { s with mem := μ }
  | subscribe {x id} : id ≤ c.maxPubMsgId x →
      Trans c s (.subscribe x id) { s with subs := update s.subs x (update (s.subs x) id true) }
  | unsubscribe {x id} : id ≤ c.maxPubMsgId x →
      Trans c s (.unsubscribe x id) { s with subs := update s.subs x (update (s.subs x) id false) }

variable {c : Cfg S} {s s' : Sys B S}

theorem deliver_trans {b : B} {p : Pkt B} {id : MsgId} {x : S} {call : Option S}
    (hw : s.work b = .scan p id (some x) call) (h : deliver c s b p id x = .ok s') :
    Trans c s (.work b) s' := by
  unfold deliver at h
  simp only at h
  split at h
  · rename_i hwant
    cases hrx : c.rxType x with
    | callback => rw [hrx] at h; cases h; exact .scanCallback hw hwant hrx
    | msgq =>
      rw [hrx] at h
      obtain ⟨μ, hμ, h⟩ := bind_ok h
      cases h
      exact .scanMsgq hw hwant hrx hμ
    | fifo =>
      rw [hrx] at h
      obtain ⟨μ, hμ, h⟩ := bind_ok h
      cases h
      exact .scanFifo hw hwant hrx hμ
  · rename_i hwant
    cases h
    exact .scanSkip hw hwant

theorem workStep_trans {b : B} (h : workStep c s b = .ok s') : Trans c s (.work b) s' := by
  unfold workStep at h
  cases hw : s.work b with
  | armed => rw [hw] at h; cases h
  | queued => rw [hw] at h; cases h; exact .workQueued hw
  | get =>
    rw [hw] at h
    cases hf : s.fifo b with
    | nil => simp only [hf] at h; cases h; exact .workGetNone hw hf
    | cons p ps =>
      simp only [hf] at h
      obtain ⟨id, hid, h⟩ := bind_ok h
      cases h
      exact .workGet hw hf hid
  | lock p id =>
    simp only [hw] at h
    split at h
    · cases h; exact .workLock hw ‹_›
    · cases h
  | scan p id sub tmp =>
    cases sub with
    | none => rw [hw] at h; cases h; exact .scanEnd hw
    | some x => rw [hw] at h; exact deliver_trans hw h
  | put p id x tmp =>
    simp only [hw] at h
    split at h
    · cases h; exact .put hw ‹_›
    · cases h
  | release p =>
    rw [hw] at h
    obtain ⟨μ, hμ, h⟩ := bind_ok h
    cases h
    exact .workRelease hw hμ
  | reset => rw [hw] at h; cases h; exact .workReset hw
  | submit => rw [hw] at h; cases h; exact .workSubmit hw

theorem forward_trans {x : S} {p : Pkt B} {id : MsgId} {b : B} {n : S}
    (hv : s.svc x = .walk p id b (some n)) (h : forward c s x p id b n = .ok s') :
    Trans c s (.svc x) s' := by
  unfold forward at h
  split at h
  · rename_i hwant
    split at h
    · rename_i hrx
      obtain ⟨μ, hμ, h⟩ := bind_ok h
      cases h
      exact .walkGive hv hwant hrx hμ
    · cases h
  · rename_i hwant
    cases h
    exact .walkSkip hv hwant

theorem svcStep_trans {x : S} (h : svcStep c s x = .ok s') : Trans c s (.svc x) s' := by
  unfold svcStep at h
  cases hv : s.svc x with
  | idle =>
    rw [hv] at h
    cases hrx : c.rxType x with
    | callback => simp only [hrx] at h; cases h
    | msgq =>
      cases hq : s.queue x with
      | nil => simp only [hrx, hq] at h; cases h
      | cons p ps =>
        simp only [hrx, hq] at h
        obtain ⟨id, hid, h⟩ := bind_ok h
        cases h
        exact .takeMsgq hv hrx hq hid
    | fifo =>
      cases hq : s.queue x with
      | nil => simp only [hrx, hq] at h; cases h
      | cons p ps =>
        simp only [hrx, hq] at h
        obtain ⟨id, hid, h⟩ := bind_ok h
        cases h
        exact .takeFifo hv hrx hq hid
  | got p id =>
    simp only [hv] at h
    split at h
    · rename_i hle
      split at h
      · cases h; exact .gotPublic hv hle ‹_›
      · cases h
    · cases h; exact .gotPrivate hv ‹_›
  | lock p id b =>
    simp only [hv] at h
    split at h
    · cases h; exact .svcLock hv ‹_›
    · cases h
  | walk p id b n =>
    cases n with
    | none => rw [hv] at h; cases h; exact .walkEnd hv
    | some n => rw [hv] at h; exact forward_trans hv h
  | ready p id => rw [hv] at h; cases h; exact .handle hv
  | running p =>
    rw [hv] at h
    obtain ⟨μ, hμ, h⟩ := bind_ok h
    cases h
    exact .svcRelease hv hμ

theorem publishTo_trans {x : S} {m : Msg} (h : publishToSubscriber c s x m = .ok s') :
    Trans c s (.publishTo x m) s' := by
  unfold publishToSubscriber at h
  split at h
  · rename_i ho
    obtain ⟨id, hid, h⟩ := bind_ok h
    simp only at h
    split at h
    · rename_i hlt
      cases hrx : c.rxType x with
      | callback => simp only [hrx] at h; cases h; exact .publishToCallback ho hid hlt hrx
      | msgq =>
        simp only [hrx] at h
        split at h
        · rename_i hcap
          cases h
          exact .publishToQueue ho hid hlt (by simp [hrx]) fun _ => hcap
        · cases h
      | fifo =>
        simp only [hrx] at h
        cases h
        exact .publishToQueue ho hid hlt (by simp [hrx]) fun e => by rw [hrx] at e; cases e
    · cases h
  · cases h

theorem addLink_trans {x : S} (h : addLink c s x = .ok s') : Trans c s (.addLink x) s' := by
  unfold addLink at h
  split at h
  · split at h
    · cases h; exact .addLink ‹_› ‹_› ‹_›
    · cases h
  · cases h

theorem removeUnlink_trans {x : S} (h : removeUnlink s x = .ok s') : Trans c s (.removeUnlink x) s' := by
  unfold removeUnlink at h
  split at h
  · split at h
    · split at h
      · cases h; exact .removeUnlink ‹_› ‹_› ‹_›
      · cases h
    · cases h
  · cases h

theorem step_trans {a : Act B S} (h : step c s a = .ok s') : Trans c s a s' := by
  cases a with
  | work b => exact workStep_trans h
  | svc x => exact svcStep_trans h
  | publish b m =>
    simp only [step, publishToBroker] at h
    split at h
    · cases h; exact .publish ‹_›
    · cases h
  | publishTo x m => exact publishTo_trans h
  | callReturn x p =>
    simp only [step, ZephyrPubSub.callReturn] at h
    split at h
    · obtain ⟨μ, hμ, h⟩ := bind_ok h
      cases h
      exact .callReturn ‹_› hμ
    · cases h
  | addStart b x =>
    simp only [step, ZephyrPubSub.addStart] at h
    split at h
    · split at h
      · cases h; exact .addStart ‹_› ‹_›
      · cases h
    · cases h
  | addLink x => exact addLink_trans h
  | removeUnlink x => exact removeUnlink_trans h
  | removeClear x =>
    simp only [step, ZephyrPubSub.removeClear] at h
    split at h
    · cases h; exact .removeClear ‹_›
    · cases h
  | setPriority x n => cases h; exact .setPriority
  | newMsg m id a => obtain ⟨μ, hμ, h⟩ := bind_ok h; cases h; exact .mem (.newMsg hμ)
  | staticMsgInit m id a => obtain ⟨μ, hμ, h⟩ := bind_ok h; cases h; exact .mem (.staticMsgInit hμ)
  | acquireStatic m =>
    simp only [step, ZephyrPubSub.acquireStatic] at h
    cases hl : s.mem.life m with
    | live hd =>
      simp only [hl] at h
      split at h
      · rename_i hc
        obtain ⟨μ, hμ, h⟩ := bind_ok h
        cases h
        exact .mem (.acquireStatic hl hc.1 hc.2 hμ)
      · cases h
    | unused => rw [hl] at h; cases h
    | freed hd => rw [hl] at h; cases h
  | releaseUnpublished m =>
    simp only [step, ZephyrPubSub.releaseUnpublished] at h
    split at h
    · obtain ⟨μ, hμ, h⟩ := bind_ok h
      cases h
      exact .mem (.releaseUnpublished ‹_› hμ)
    · cases h
  | acquireExtra m =>
    simp only [step, ZephyrPubSub.acquireExtra] at h
    cases hl : s.mem.life m with
    | live hd =>
      simp only [hl] at h
      split at h
      · obtain ⟨μ, hμ, h⟩ := bind_ok h
        cases h
        exact .mem (.acquireExtra hl ‹_› hμ)
      · cases h
    | unused => rw [hl] at h; cases h
    | freed hd => rw [hl] at h; cases h
  | releaseExtra m =>
    simp only [step, ZephyrPubSub.releaseExtra] at h
    split at h
    · obtain ⟨μ, hμ, h⟩ := bind_ok h
      cases h
      exact .mem (.releaseExtra ‹_› hμ)
    · cases h
  | subscribe x id =>
    simp only [step, ZephyrPubSub.subscribe] at h
    split at h
    · cases h; exact .subscribe ‹_›
    · cases h
  | unsubscribe x id =>
    simp only [step, ZephyrPubSub.unsubscribe] at h
    split at h
    · cases h; exact .unsubscribe ‹_›
    · cases h

/-! ## Every outcome is one of `step` -/

theorem MemStep.step {n : Nat} {a : Act B S} {μ : Mem} (hn : c.numAllocators = n) (h : MemStep n s.mem a μ) :
    ZephyrPubSub.step c s a = .ok { s with mem := μ } := by
  subst hn
  cases h with
  | newMsg hμ => rw [ZephyrPubSub.step, hμ]; rfl
  | staticMsgInit hμ => rw [ZephyrPubSub.step, hμ]; rfl
  | acquireStatic hl ha h0 hμ =>
    simp only [ZephyrPubSub.step, ZephyrPubSub.acquireStatic, hl, if_pos (And.intro ha h0), hμ]
    rfl
  | releaseUnpublished ho hμ =>
    simp only [ZephyrPubSub.step, ZephyrPubSub.releaseUnpublished, if_pos ho, hμ]
    rfl
  | acquireExtra hl hpos hμ =>
    simp only [ZephyrPubSub.step, ZephyrPubSub.acquireExtra, hl, if_pos hpos, hμ]
    rfl
  | releaseExtra hpos hμ =>
    simp only [ZephyrPubSub.step, ZephyrPubSub.releaseExtra, if_pos hpos, hμ]
    rfl

theorem Trans.step {a : Act B S} (h : Trans c s a s') : ZephyrPubSub.step c s a = .ok s' := by
  cases h with
  | workQueued hw | scanEnd hw | workReset hw | workSubmit hw => simp only [ZephyrPubSub.step, workStep, hw]
  | workGetNone hw hf => simp only [ZephyrPubSub.step, workStep, hw, hf]
  | workGet hw hf hid => simp only [ZephyrPubSub.step, workStep, hw, hf, hid]; rfl
  | workLock hw hm => simp only [ZephyrPubSub.step, workStep, hw, hm, if_true]
  | scanSkip hw hn => simp only [ZephyrPubSub.step, workStep, hw, deliver, if_neg hn]
  | scanCallback hw hn hrx => simp only [ZephyrPubSub.step, workStep, hw, deliver, if_pos hn, hrx]
  | scanMsgq hw hn hrx hμ => simp only [ZephyrPubSub.step, workStep, hw, deliver, if_pos hn, hrx, hμ]; rfl
  | scanFifo hw hn hrx hμ => simp only [ZephyrPubSub.step, workStep, hw, deliver, if_pos hn, hrx, hμ]; rfl
  | put hw hlen => simp only [ZephyrPubSub.step, workStep, hw, if_pos hlen]
  | workRelease hw hμ => simp only [ZephyrPubSub.step, workStep, hw, hμ]; rfl
  | takeMsgq hv hrx hq hid => simp only [ZephyrPubSub.step, svcStep, hv, hrx, hq, hid]; rfl
  | takeFifo hv hrx hq hid => simp only [ZephyrPubSub.step, svcStep, hv, hrx, hq, hid]; rfl
  | gotPublic hv hle hb => simp only [ZephyrPubSub.step, svcStep, hv, if_pos hle, hb]
  | gotPrivate hv hle => simp only [ZephyrPubSub.step, svcStep, hv, if_neg hle]
  | svcLock hv hm => simp only [ZephyrPubSub.step, svcStep, hv, hm, if_true]
  | walkEnd hv => simp only [ZephyrPubSub.step, svcStep, hv]
  | walkSkip hv hn => simp only [ZephyrPubSub.step, svcStep, hv, forward, if_neg hn]
  | walkGive hv hn hrx hμ => simp only [ZephyrPubSub.step, svcStep, hv, forward, if_pos hn, hrx, if_true, hμ]; rfl
  | handle hv => simp only [ZephyrPubSub.step, svcStep, hv]
  | svcRelease hv hμ => simp only [ZephyrPubSub.step, svcStep, hv, hμ]; rfl
  | publish ho => simp only [ZephyrPubSub.step, publishToBroker, ho, if_true]
  | publishToCallback ho hid hlt hrx =>
    simp only [ZephyrPubSub.step, publishToSubscriber, ho, if_true, hid, bind, Except.bind, if_pos hlt, hrx]
  | @publishToQueue x m id ho hid hlt hrx hlen =>
    simp only [ZephyrPubSub.step, publishToSubscriber, ho, if_true, hid, bind, Except.bind, if_pos hlt]
    cases hk : c.rxType x with
    | callback => exact absurd hk hrx
    | msgq => simp only [if_pos (hlen hk)]
    | fifo => rfl
  | callReturn hc hμ => simp only [ZephyrPubSub.step, ZephyrPubSub.callReturn, if_pos hc, hμ]; rfl
  | addStart ha hb => simp only [ZephyrPubSub.step, ZephyrPubSub.addStart, ha, hb, if_true]
  | addLink ha hb hm => simp only [ZephyrPubSub.step, ZephyrPubSub.addLink, ha, hb, hm, if_true]
  | removeUnlink ha hb hm => simp only [ZephyrPubSub.step, ZephyrPubSub.removeUnlink, ha, hb, hm, if_true]
  | removeClear ha => simp only [ZephyrPubSub.step, ZephyrPubSub.removeClear, ha, if_true]
  | setPriority => rfl
  | mem h => exact h.step rfl
  | subscribe hle => simp only [ZephyrPubSub.step, ZephyrPubSub.subscribe, if_pos hle]
  | unsubscribe hle => simp only [ZephyrPubSub.step, ZephyrPubSub.unsubscribe, if_pos hle]

/-! ## What stops a thread -/

/-- The work item waits for a message, the mutex, or room in a msgq. -/
def WorkWaits (c : Cfg S) (s : Sys B S) (b : B) : Prop :=
  match s.work b with
  | .armed => True
  | .lock .. => s.mutex b ≠ none
  | .put _ _ x _ => c.maxMsgs x ≤ (s.queue x).length
  | _ => False

/-- The subscriber has no message to handle, or its thread waits for the mutex. -/
def SvcWaits (c : Cfg S) (s : Sys B S) (x : S) : Prop :=
  match s.svc x with
  | .idle => c.rxType x = .callback ∨ s.queue x = []
  | .lock _ _ b => s.mutex b ≠ none
  | _ => False

theorem bind_error_of {α β : Type} {x : Except Stop α} {f : α → β} {e : Stop}
    (hx : ∀ e', x = .error e' → e'.ofMem = true) (h : (x >>= fun v => .ok (f v)) = .error e) : e.ofMem = true := by
  cases x with
  | error e' => cases h; exact hx _ rfl
  | ok v => cases h

theorem deliver_error {b : B} {p : Pkt B} {id : MsgId} {x : S} {e : Stop}
    (h : deliver c s b p id x = .error e) : e.ofMem = true := by
  unfold deliver at h
  simp only at h
  split at h
  · cases hrx : c.rxType x with
    | callback => rw [hrx] at h; cases h
    | msgq => rw [hrx] at h; exact bind_error_of (fun _ => Mem.acquireMsg_error) h
    | fifo => rw [hrx] at h; exact bind_error_of (fun _ => Mem.acquireMsg_error) h
  · cases h

theorem workStep_error {b : B} {e : Stop} (h : workStep c s b = .error e) :
    e.ofMem = true ∨ e = .blocked ∧ WorkWaits c s b := by
  unfold WorkWaits
  unfold workStep at h
  cases hw : s.work b with
  | armed => rw [hw] at h; cases h; exact Or.inr ⟨rfl, trivial⟩
  | get =>
    rw [hw] at h
    cases hf : s.fifo b with
    | nil => simp only [hf] at h; cases h
    | cons p ps =>
      simp only [hf] at h
      exact Or.inl (bind_error_of (fun _ => Mem.getMsgId_error) h)
  | lock p id =>
    simp only [hw] at h
    split at h <;> cases h
    exact Or.inr ⟨rfl, ‹_›⟩
  | scan p id sub tmp =>
    cases sub with
    | none => rw [hw] at h; cases h
    | some x => rw [hw] at h; exact Or.inl (deliver_error h)
  | put p id x tmp =>
    simp only [hw] at h
    split at h <;> cases h
    exact Or.inr ⟨rfl, Nat.le_of_not_lt ‹_›⟩
  | release p => rw [hw] at h; exact Or.inl (bind_error_of (fun _ => Mem.releaseMsg_error) h)
  | _ => rw [hw] at h; cases h

theorem svcStep_error {x : S} {e : Stop} (h : svcStep c s x = .error e) :
    e.ofMem = true ∨ ((e = .blocked ∨ e = .misuse) ∧ SvcWaits c s x) ∨
    (e = .notFifo ∧ ∃ p id b n, s.svc x = .walk p id b (some n) ∧ c.rxType n ≠ .fifo) ∨
    (e = .nullBroker ∧ ∃ p id, s.svc x = .got p id ∧ id ≤ c.maxPubMsgId x ∧ s.broker x = none) := by
  unfold SvcWaits
  unfold svcStep at h
  cases hv : s.svc x with
  | idle =>
    rw [hv] at h
    cases hrx : c.rxType x with
    | callback => simp only [hrx] at h; cases h; exact Or.inr (Or.inl ⟨Or.inr rfl, Or.inl rfl⟩)
    | msgq =>
      cases hq : s.queue x with
      | nil => simp only [hrx, hq] at h; cases h; exact Or.inr (Or.inl ⟨Or.inl rfl, Or.inr rfl⟩)
      | cons p ps =>
        simp only [hrx, hq] at h
        exact Or.inl (bind_error_of (fun _ => Mem.getMsgId_error) h)
    | fifo =>
      cases hq : s.queue x with
      | nil => simp only [hrx, hq] at h; cases h; exact Or.inr (Or.inl ⟨Or.inl rfl, Or.inr rfl⟩)
      | cons p ps =>
        simp only [hrx, hq] at h
        exact Or.inl (bind_error_of (fun _ => Mem.getMsgId_error) h)
  | got p id =>
    simp only [hv] at h
    split at h
    · rename_i hle
      split at h <;> cases h
      exact Or.inr (Or.inr (Or.inr ⟨rfl, p, id, rfl, hle, ‹_›⟩))
    · cases h
  | lock p id b =>
    simp only [hv] at h
    split at h <;> cases h
    exact Or.inr (Or.inl ⟨Or.inl rfl, ‹_›⟩)
  | walk p id b n =>
    cases n with
    | none => rw [hv] at h; cases h
    | some n =>
      rw [hv] at h
      simp only [forward] at h
      split at h
      · split at h
        · exact Or.inl (bind_error_of (fun _ => Mem.acquireMsg_error) h)
        · cases h
          exact Or.inr (Or.inr (Or.inl ⟨rfl, p, id, b, n, rfl, ‹_›⟩))
      · cases h
  | ready p id => rw [hv] at h; cases h
  | running p => rw [hv] at h; exact Or.inl (bind_error_of (fun _ => Mem.releaseMsg_error) h)

end

/-! ## The message memory -/

/-- What a step does to the headers and to the `free` calls. -/
inductive MemEffect (n : Nat) (μ μ' : Mem) : Prop
  | keep : μ'.life = μ.life → μ'.freeCalls = μ.freeCalls → MemEffect n μ μ'
  | acquire {k μ₁} : μ.acquireMsg k = .ok μ₁ → μ'.life = μ₁.life → μ'.freeCalls = μ₁.freeCalls →
      MemEffect n μ μ'
  | release {k μ₁} : μ.releaseMsg n k = .ok μ₁ → μ'.life = μ₁.life → μ'.freeCalls = μ₁.freeCalls →
      MemEffect n μ μ'
  | newMsg {m i a} : μ.newMsg n m i a = .ok μ' → MemEffect n μ μ'
  | staticMsgInit {m i a} : μ.staticMsgInit m i a = .ok μ' → MemEffect n μ μ'

theorem memStep_effect {B S : Type} {n : Nat} {μ μ' : Mem} {a : Act B S} (h : MemStep n μ a μ') :
    MemEffect n μ μ' := by
  cases h with
  | newMsg h => exact .newMsg h
  | staticMsgInit h => exact .staticMsgInit h
  | acquireStatic _ _ _ h => exact .acquire h rfl rfl
  | releaseUnpublished _ h => exact .release h rfl rfl
  | acquireExtra _ _ h => exact .acquire h rfl rfl
  | releaseExtra _ h => exact .release h rfl rfl

theorem MemEffect.ids {n : Nat} {μ μ' : Mem} (h : MemEffect n μ μ') : Mem.IdsKept μ μ' := by
  cases h with
  | keep h _ => exact Mem.IdsKept.of_life h
  | acquire h hl _ => exact (Mem.acquireMsg_ids h).trans (Mem.IdsKept.of_life hl)
  | release h hl _ => exact (Mem.releaseMsg_ids h).trans (Mem.IdsKept.of_life hl)
  | newMsg h => exact Mem.newMsg_ids h
  | staticMsgInit h => exact Mem.staticMsgInit_ids h

section
variable {B S : Type} [DecidableEq B] [DecidableEq S] {c : Cfg S} {s s' : Sys B S}

theorem trans_mem {a : Act B S} (h : Trans c s a s') : MemEffect c.numAllocators s.mem s'.mem := by
  cases h with
  | scanMsgq _ _ _ h => exact .acquire h rfl rfl
  | scanFifo _ _ _ h => exact .acquire h rfl rfl
  | workRelease _ h => exact .release h rfl rfl
  | walkGive _ _ _ h => exact .acquire h rfl rfl
  | svcRelease _ h => exact .release h rfl rfl
  | callReturn _ h => exact .release h rfl rfl
  | mem h => exact memStep_effect h
  | _ => exact .keep rfl rfl

theorem trans_ids {a : Act B S} (h : Trans c s a s') : Mem.IdsKept s.mem s'.mem := (trans_mem h).ids

end

end ZephyrPubSub
