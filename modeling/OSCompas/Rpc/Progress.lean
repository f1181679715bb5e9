import OSCompas.Rpc.Framework

/-!
# Every RPC call returns

A call whose client polls is answered within two scans of the table, counted in steps of the
server; what the other clients do in between does not matter.

* `Stage.left`, `Server.distance` — the steps of the server until it has dealt with a request.

Principal result: `call_returns`.
-/

set_option autoImplicit false

namespace OSCompas.Rpc

open Function Progress

variable {code : Compiled} {requestCount : Nat} {s t u : State} {a : Action}
  {as₀ as bs : List Action} {i k : Nat} {c : Call} {req : RpcRequest} {st st' : Stage}

/-! ## Steps of the server -/

/-- An upper bound on the accesses left in the body of the loop. -/
def Stage.left : Stage → Nat
  | .scan => 10
  | .processed => 9
  | .lock => 8
  | .check => 7
  | .method => 6
  | .param1 _ => 5
  | .param2 _ _ => 4
  | .store _ => 3
  | .finish => 2
  | .unlock => 1
  | .sleep | .fault => 0

theorem Stage.left_le (st : Stage) : st.left ≤ 10 := by cases st <;> simp [left]

theorem serveStep_left (hst : st ≠ .fault) (h : (serveStep req st).2 = some st') :
    st'.left < st.left := by
  cases st with
  | scan | processed =>
    simp only [serveStep, Option.ite_none_right_eq_some, Option.some.injEq] at h
    obtain ⟨-, rfl⟩ := h
    simp [Stage.left]
  | check =>
    simp only [serveStep] at h
    split at h <;> cases h <;> simp [Stage.left]
  | param2 m a =>
    simp only [serveStep] at h
    split at h <;> cases h <;> simp [Stage.left]
  | lock | method | param1 | store | finish =>
    cases h
    simp [Stage.left]
  | unlock | sleep => cases h
  | fault => exact absurd rfl hst

theorem serveStep_left_pos (hst : st ≠ .fault) (hst' : st ≠ .sleep) : 0 < st.left := by
  cases st <;> simp_all [Stage.left]

theorem serveStep_ne_sleep (h : (serveStep req st).2 = some st') : st' ≠ .sleep := by
  rintro rfl
  cases st with
  | scan | processed | check =>
    simp only [serveStep] at h
    split at h <;> cases h
  | param2 m a =>
    simp only [serveStep] at h
    split at h <;> cases h
  | _ => cases h

/-- How many steps the server may take before it has dealt with request `i`. -/
def Server.distance (requestCount i : Nat) (v : Server) : Nat :=
  if v.stage = .sleep then 10 * i + 11
  else if v.i < i ∨ v.i = i ∧ v.stage ≠ .unlock then 10 * (i - v.i) + v.stage.left
  else 10 * (requestCount - v.i) + v.stage.left + 10 * i + 11

/-- The server gets to request `i` before the end of the table. -/
def Server.Near (i : Nat) (v : Server) : Prop := v.i < i ∨ v.i = i ∧ v.stage ≠ .unlock

theorem Server.distance_near {v : Server} (hst : v.stage ≠ .sleep) (h : v.Near i) :
    v.distance requestCount i = 10 * (i - v.i) + v.stage.left := by
  unfold Near at h
  rw [distance, if_neg hst, if_pos h]

theorem Server.distance_far {v : Server} (hst : v.stage ≠ .sleep) (h : ¬ v.Near i) :
    v.distance requestCount i = 10 * (requestCount - v.i) + v.stage.left + 10 * i + 11 := by
  unfold Near at h
  rw [distance, if_neg hst, if_neg h]

theorem Server.distance_le {v : Server} (hi : i < requestCount) :
    v.distance requestCount i ≤ 20 * requestCount + 11 := by
  have := v.stage.left_le
  unfold distance
  split
  · omega
  · split <;> omega

/-- A step that stays at the request, or leaves it for the next one, is one step nearer. -/
theorem Server.distance_next {v : Server} (hv : v.i < requestCount) (hst : v.stage ≠ .fault)
    (hsleep : v.stage ≠ .sleep)
    (hleave : v.i = i → (serveStep req v.stage).2 = none → v.stage = .unlock)
    (hunlock : v.i = i → (serveStep req v.stage).2 ≠ some .unlock) :
    (Server.next v.i (serveStep req v.stage).2).distance requestCount i <
      v.distance requestCount i := by
  have hpos := serveStep_left_pos hst hsleep
  cases h : (serveStep req v.stage).2 with
  | none =>
    have hscan : Stage.scan.left = 10 := rfl
    by_cases hlt : v.i < i
    · have hnear : (next v.i none).Near i :=
        (Nat.lt_or_eq_of_le hlt).imp_right fun h => ⟨h, nofun⟩
      rw [distance_near hsleep (.inl hlt), distance_near (by simp [next]) hnear]
      simp only [next]
      omega
    · have hfar : ¬ v.Near i := by
        rintro (h' | ⟨h', hu⟩)
        · exact hlt h'
        · exact hu (hleave h' h)
      have hfar' : ¬ (next v.i none).Near i := by
        simp only [Near, next]
        omega
      rw [distance_far hsleep hfar, distance_far (by simp [next]) hfar']
      simp only [next]
      omega
  | some st' =>
    rw [h] at hunlock
    have hlt : st'.left < v.stage.left := serveStep_left hst h
    have hsleep' : (next v.i (some st')).stage ≠ .sleep := serveStep_ne_sleep h
    by_cases hv : v.Near i
    · have hnear : (next v.i (some st')).Near i :=
        hv.imp_right fun h => ⟨h.1, fun he => hunlock h.1 (congrArg some he)⟩
      rw [distance_near hsleep hv, distance_near hsleep' hnear]
      simp only [next]
      omega
    · have hfar : ¬ (next v.i (some st')).Near i := by
        rintro (h' | ⟨h', -⟩)
        · exact hv (.inl h')
        · refine hv (.inr ⟨h', fun hu => ?_⟩)
          simp [hu, serveStep] at h
      rw [distance_far hsleep hv, distance_far hsleep' hfar]
      simp only [next]
      omega

/-! ## The server answers -/

/-- The calls processed on request `i` are never taken back. -/
theorem step_served (h : s.step code requestCount a = some t) : s.served i <+: t.served i := by
  obtain ⟨-, h⟩ := State.step_eq_some.mp h
  cases a with
  | server =>
    simp only [State.act, State.serverStep] at h
    split at h
    · obtain rfl := Option.some.inj h
      exact List.prefix_rfl
    · split at h
      · obtain ⟨locked, -, rfl⟩ := Option.map_eq_some_iff.mp h
        simp only
        split
        · by_cases hi : i = s.server.i
          · subst hi
            simp
          · simp [hi]
        · exact List.prefix_rfl
      · obtain rfl := Option.some.inj h
        exact List.prefix_rfl
  | client j =>
    obtain rfl := Option.some.inj h
    exact List.prefix_rfl
  | call j c =>
    simp only [State.act] at h
    split at h
    · obtain rfl := Option.some.inj h
      exact List.prefix_rfl
    · cases h

theorem getElem?_of_isPrefix {α : Type} {l l' : List α} {x : α} (h : l <+: l')
    (hx : l[k]? = some x) : l'[k]? = some x := by
  obtain ⟨r, rfl⟩ := h
  exact List.getElem?_append_left (List.getElem?_eq_some_iff.mp hx).1 ▸ hx

/-- Call `c` on request `i`, the one after `k` others, is polled for unless it has been
processed. -/
def Polled (requestCount i k : Nat) (c : Call) (s : State) : Prop :=
  Sound requestCount s ∧
    ((s.served i)[k]? = some c ∨ s.clients i = .poll c ∧ (s.returned i).length = k)

/-- Until it has been processed it is pending. -/
theorem Polled.pending (h : Polled requestCount i k c s) (hk : (s.served i)[k]? ≠ some c) :
    s.clients i = .poll c ∧ (s.returned i).length = k ∧ (s.requests i).ready ≠ 0 ∧
      Pending c (s.requests i) (s.server.stageAt i) ∧ (s.served i).length = k := by
  obtain ⟨hs, h | ⟨hpoll, hlen⟩⟩ := h
  · exact absurd h hk
  have hg := hs.good i
  rw [hpoll] at hg
  obtain ⟨hready, ⟨hp, hl⟩ | ⟨-, hl⟩⟩ := hg
  · exact ⟨hpoll, hlen, hready, hp, by rw [hl, List.length_map, hlen]⟩
  · refine absurd ?_ hk
    rw [hl, ← hlen, ← List.length_map]
    exact List.getElem?_concat_length

theorem Polled.step (hk : code.Kept) (h : Polled requestCount i k c s)
    (ht : s.step code requestCount a = some t) :
    Polled requestCount i k c t := by
  refine ⟨h.1.step hk ht, ?_⟩
  by_cases hserved : (s.served i)[k]? = some c
  · exact .inl (getElem?_of_isPrefix (step_served ht) hserved)
  obtain ⟨hpoll, hlen, -, hp, -⟩ := h.pending hserved
  right
  obtain ⟨-, ht⟩ := State.step_eq_some.mp ht
  cases a with
  | server =>
    obtain ⟨-, -, rfl⟩ | ⟨-, rfl⟩ | ⟨-, -, rfl⟩ := h.1.server_cases ht <;> exact ⟨hpoll, hlen⟩
  | client j =>
    obtain rfl := Option.some.inj ht
    by_cases hj : i = j
    · subst hj
      simp [State.clientStep, hpoll, callStep, hp.processed, hlen]
    · simp [State.clientStep, hj, hpoll, hlen]
  | call j c' =>
    simp only [State.act] at ht
    split at ht
    · rename_i hidle
      obtain rfl := Option.some.inj ht
      have hj : i ≠ j := by
        rintro rfl
        rw [hpoll] at hidle
        cases hidle
      simp [hj, hpoll, hlen]
    · cases ht

theorem Pending.serve_none (h : Pending c req st) (hr : req.ready ≠ 0)
    (hn : (serveStep req st).2 = none) : st = .unlock ∨ st = .sleep := by
  cases st with
  | scan => simp [serveStep, hr] at hn
  | processed => simp [serveStep, h.processed] at hn
  | check =>
    simp only [serveStep] at hn
    split at hn <;> cases hn
  | param2 m a =>
    simp only [serveStep] at hn
    split at hn <;> cases hn
  | lock | method | param1 | store | finish | fault => cases hn
  | unlock => exact .inl rfl
  | sleep => exact .inr rfl

theorem serveStep_unlock (h : (serveStep req st).2 = some .unlock) : st = .finish := by
  cases st with
  | scan | processed | check =>
    simp only [serveStep] at h
    split at h <;> cases h
  | param2 m a =>
    simp only [serveStep] at h
    split at h <;> cases h
  | finish => rfl
  | _ => cases h

/-- **The server gets nearer to a polled call at each of its steps**, until it has processed it. -/
theorem Polled.falls (h : Polled requestCount i k c s) (hi : i < requestCount)
    (hk : (s.served i)[k]? ≠ some c) (hfault : s.server.stage ≠ .fault)
    (ht : s.serverStep requestCount = some t) :
    (t.served i)[k]? = some c ∨
      t.server.distance requestCount i < s.server.distance requestCount i := by
  obtain ⟨-, -, hready, hp, hlen⟩ := h.pending hk
  obtain ⟨hsleep, hn, rfl⟩ | ⟨hsleep, rfl⟩ | ⟨hscan, hn, rfl⟩ := h.1.server_cases ht
  · by_cases hfin : s.server.i = i ∧ s.server.stage = .finish
    · obtain ⟨rfl, hfin⟩ := hfin
      left
      simp only [update_self, logged, hfin, if_true, hp.call, ← hlen]
      exact List.getElem?_concat_length
    right
    have at_i (hv : s.server.i = i) : s.server.stageAt i = s.server.stage := by
      simp [Server.stageAt, hv]
    apply Server.distance_next hn hfault hsleep
    · intro hv hnone
      rw [hv, ← at_i hv] at hnone
      have := hp.serve_none hready hnone
      rw [at_i hv] at this
      exact this.resolve_right hsleep
    · exact fun hv hu => hfin ⟨hv, serveStep_unlock hu⟩
  · right
    have hnear : (Server.mk 0 .scan false).Near i :=
      (Nat.eq_zero_or_pos i).elim (fun h => .inr ⟨h.symm, by simp⟩) .inl
    rw [Server.distance_near (by simp) hnear, Server.distance, if_pos hsleep]
    simp only [Stage.left]
    omega
  · right
    have hfar : ¬ s.server.Near i := by
      unfold Server.Near
      omega
    rw [Server.distance_far (by simp [hscan]) hfar, Server.distance, if_pos rfl, hscan]
    simp only [Stage.left]
    omega

/-- Only the server moves the server. -/
theorem step_server (h : s.step code requestCount a = some t) (ha : a.isServer = false) :
    t.server = s.server := by
  obtain ⟨-, h⟩ := State.step_eq_some.mp h
  cases a with
  | server => cases ha
  | client j =>
    obtain rfl := Option.some.inj h
    rfl
  | call j c =>
    simp only [State.act] at h
    split at h
    · obtain rfl := Option.some.inj h
      rfl
    · cases h

theorem ranked_server (hk : code.Kept) (hi : i < requestCount) (k : Nat) (c : Call) :
    Ranked (State.step code requestCount) Action.isServer (Polled requestCount i k c)
      (fun s => (s.served i)[k]? = some c) fun s => s.server.distance requestCount i where
  keeps _ _ _ := Polled.step hk
  stays _ _ _ _ hg ht := getElem?_of_isPrefix (step_served ht) hg
  falls s a t h hg ha ht := by
    cases a with
    | server =>
      obtain ⟨hfault, ht⟩ := State.step_eq_some.mp ht
      exact h.falls hi hg hfault ht
    | _ => cases ha
  rests s a t _ _ ha ht := .inr (Nat.le_of_eq (by rw [step_server ht ha]))

/-! ## The client takes the answer -/

/-- The accesses of `rpc_call` left once the answer is there. -/
def ClientPc.left : ClientPc → Nat
  | .poll _ => 2
  | .clear _ => 1
  | _ => 0

/-- Call `c` on request `i`, the one after `k` others, has returned or is on its way to. -/
def Calling (requestCount i k : Nat) (c : Call) (s : State) : Prop :=
  Sound requestCount s ∧ ((s.returned i)[k]? = some (c, c.value) ∨ (s.returned i).length = k ∧
    (s.clients i = .poll c ∨ s.clients i = .clear c ∨ s.clients i = .fetch c))

theorem step_returned (h : s.step code requestCount a = some t) :
    s.returned i <+: t.returned i := by
  obtain ⟨-, h⟩ := State.step_eq_some.mp h
  cases a with
  | server =>
    simp only [State.act, State.serverStep] at h
    split at h
    · obtain rfl := Option.some.inj h
      exact List.prefix_rfl
    · split at h
      · obtain ⟨locked, -, rfl⟩ := Option.map_eq_some_iff.mp h
        exact List.prefix_rfl
      · obtain rfl := Option.some.inj h
        exact List.prefix_rfl
  | client j =>
    obtain rfl := Option.some.inj h
    by_cases hj : i = j
    · subst hj
      simp [State.clientStep]
    · simp [State.clientStep, hj]
  | call j c =>
    simp only [State.act] at h
    split at h
    · obtain rfl := Option.some.inj h
      exact List.prefix_rfl
    · cases h

/-- What a step does to a call that has not returned. -/
theorem Calling.step_cases (hk : code.Kept) (h : Calling requestCount i k c s)
    (hg : (s.returned i)[k]? ≠ some (c, c.value)) (ht : s.step code requestCount a = some t) :
    (t.returned i)[k]? = some (c, c.value) ∨
      (t.returned i).length = k ∧
        (t.clients i = .poll c ∨ t.clients i = .clear c ∨ t.clients i = .fetch c) ∧
        (t.clients i).left ≤ (s.clients i).left ∧
        (a = .client i → (s.served i)[k]? = some c →
          (t.clients i).left < (s.clients i).left) := by
  obtain ⟨hs, hret⟩ := h
  obtain ⟨hlen, hpc⟩ := hret.resolve_left hg
  obtain ⟨-, ht⟩ := State.step_eq_some.mp ht
  cases a with
  | server =>
    obtain ⟨-, -, rfl⟩ | ⟨-, rfl⟩ | ⟨-, -, rfl⟩ := hs.server_cases ht <;>
      exact .inr ⟨hlen, hpc, Nat.le_refl _, nofun⟩
  | client j =>
    obtain rfl := Option.some.inj ht
    by_cases hj : i = j
    · subst hj
      have hg := hs.good i
      obtain hpc | hpc | hpc := hpc
      · right
        rw [hpc] at hg
        by_cases hp : (s.requests i).processed = 0
        · -- not in the log of the server yet
          obtain ⟨-, ⟨-, hl⟩ | ⟨ha, -⟩⟩ := hg
          · have hserved : (s.served i)[k]? ≠ some c := by simp [hl, hlen]
            simp [State.clientStep, hpc, callStep, hp, hlen, hserved]
          · exact absurd hp ha.processed
        · simp [State.clientStep, hpc, callStep, hp, hlen, ClientPc.left]
      · right
        simp [State.clientStep, hpc, callStep, hlen, ClientPc.left]
      · left
        rw [hpc] at hg
        simp only [State.clientStep, hpc, callStep, update_self, Option.toList_some, hk.2,
          Bool.false_eq_true, if_false, hg.2.1.result, ← hlen]
        exact List.getElem?_concat_length
    · have hne : (.client j : Action) ≠ .client i := fun h => hj (by cases h; rfl)
      simp [State.clientStep, hj, hpc, hlen, hne]
  | call j c' =>
    simp only [State.act] at ht
    split at ht
    · rename_i hidle
      obtain rfl := Option.some.inj ht
      have hj : i ≠ j := by
        rintro rfl
        rw [hidle] at hpc
        simp at hpc
      simp [hj, hpc, hlen]
    · cases ht

theorem Calling.step (hk : code.Kept) (h : Calling requestCount i k c s)
    (ht : s.step code requestCount a = some t) :
    Calling requestCount i k c t := by
  refine ⟨h.1.step hk ht, ?_⟩
  by_cases hg : (s.returned i)[k]? = some (c, c.value)
  · exact .inl (getElem?_of_isPrefix (step_returned ht) hg)
  · exact (h.step_cases hk hg ht).imp_right fun h => ⟨h.1, h.2.1⟩

theorem ranked_client (hk : code.Kept) (requestCount i k : Nat) (c : Call) :
    Ranked (State.step code requestCount) (fun a => a = .client i)
      (fun s => Calling requestCount i k c s ∧ (s.served i)[k]? = some c)
      (fun s => (s.returned i)[k]? = some (c, c.value)) fun s => (s.clients i).left where
  keeps _ _ _ h ht := ⟨h.1.step hk ht, getElem?_of_isPrefix (step_served ht) h.2⟩
  stays _ _ _ _ hg ht := getElem?_of_isPrefix (step_returned ht) hg
  falls _ _ _ h hg ha ht :=
    (h.1.step_cases hk hg ht).imp_right fun h' => h'.2.2.2 (of_decide_eq_true ha) h.2
  rests _ _ _ h hg _ ht := (h.1.step_cases hk hg ht).imp_right fun h' => h'.2.2.1

/-- **Every call returns, with its own answer**: from any state in which a client polls for it, the
server needs at most two scans of the table and the client three more steps, whatever the others
do in between. -/
theorem call_returns (hk : code.Kept)
    (h₀ : as₀.foldlM (State.step code requestCount) .initial = some s)
    (hi : i < requestCount) (hpoll : s.clients i = .poll c)
    (hserver : as.foldlM (State.step code requestCount) s = some t)
    (hscans : 20 * requestCount + 11 < as.countP Action.isServer)
    (hclient : bs.foldlM (State.step code requestCount) t = some u)
    (hsteps : 3 ≤ bs.countP fun a => a = .client i) :
    (u.returned i)[(s.returned i).length]? = some (c, c.value) := by
  have hs := sound_run hk h₀
  have hp : Polled requestCount i (s.returned i).length c s := ⟨hs, .inr ⟨hpoll, rfl⟩⟩
  have hserved : (t.served i)[(s.returned i).length]? = some c := by
    apply (ranked_server hk hi _ c).reached hp hserver
    exact Nat.lt_of_le_of_lt (Server.distance_le hi) hscans
  have hcalling : Calling requestCount i (s.returned i).length c t :=
    invariant_foldlM (fun _ _ _ => Calling.step hk) ⟨hs, .inr ⟨rfl, .inl hpoll⟩⟩ hserver
  apply (ranked_client hk requestCount i _ c).reached ⟨hcalling, hserved⟩ hclient
  exact Nat.lt_of_le_of_lt (by cases t.clients i <;> simp [ClientPc.left]) hsteps

/-- Two scans of a table of one request. -/
theorem call_returns_div : ∃ s t u : State,
    (.call 0 ⟨3, 100, 4⟩ :: List.replicate 7 (.client 0)).foldlM (State.step .source 1) .initial =
        some s ∧ s.clients 0 = .poll ⟨3, 100, 4⟩ ∧
      (List.replicate 32 .server).foldlM (State.step .source 1) s = some t ∧
      (List.replicate 3 (.client 0)).foldlM (State.step .source 1) t = some u ∧
      (u.returned 0)[(s.returned 0).length]? = some (⟨3, 100, 4⟩, (Call.mk 3 100 4).value) := by
  have hx : ((.call 0 ⟨3, 100, 4⟩ :: List.replicate 7 (.client 0)).foldlM
      (State.step .source 1) .initial).bind (fun s =>
        ((List.replicate 32 .server).foldlM (State.step .source 1) s).bind fun t =>
          ((List.replicate 3 (.client 0)).foldlM (State.step .source 1) t).map fun _ =>
            s.clients 0) = some (.poll ⟨3, 100, 4⟩) := by
    decide +kernel
  obtain ⟨s, hs, hx⟩ := Option.bind_eq_some_iff.mp hx
  obtain ⟨t, ht, hx⟩ := Option.bind_eq_some_iff.mp hx
  obtain ⟨u, hu, hpoll⟩ := Option.map_eq_some_iff.mp hx
  exact ⟨s, t, u, hs, hpoll, ht, hu,
    call_returns kept_source hs Nat.one_pos hpoll ht (by decide) hu (by decide)⟩

end OSCompas.Rpc
