/-
The two guarantees of the install transaction over whole runs: it
settles all or nothing, and no Caddyfile on disk ever names an env file
that is not there. A run is an install cut off anywhere and any number
of recoveries after it, each cut off anywhere, with every write's fate
up to the environment.

# Where the first one fails

`reloadSwapped` writes the record `applied` and, told that the write
failed, rolls back. If the record did land, and the rolling_back record
that should replace it does not, the files go back under a record that
says applied. A rollback that stops half way then leaves a mixed set,
which the next run's recovery takes for a console edit: it reports
unknown and removes the record (`mixed_after_lost_rolling_back`). The
settlement holds in every run where no such record is lost
(`keepsRollingBack`).
-/
import Hotserve.Box.Proofs.Settle

namespace Hotserve.Box

open Bytes Effect

variable {h : Host} {b : Record} {w w₀ : World} {t : Txn}

-- ====== the whole system

/-- A planned transaction starts in the invariant. -/
theorem Txn.Planned.inv (hp : t.Planned h w) : Inv h t.record w := by
  have hnone : ∀ p, ¬w.Reported p := by
    rintro p ⟨res, hmem, -⟩
    rw [hp.unreported] at hmem
    cases hmem
  refine ⟨fun f hf => .inl (hp.at_prev f hf), fun hset => ⟨?_, ?_⟩, ?_,
    hp.listed, .inr ⟨?_, ?_, ?_, ?_, ?_⟩⟩
  · intro _ e he hne
    refine file_of_envDigest ?_ (Option.some.inj
      (hp.at_prev _ (mem_set_env he)))
    change isDigest e.prevSHA256 = true
    rw [← hp.env_prev e he hne]
    exact h.digest_isDigest _
  · intro hnew
    have hprev := hp.at_prev _ mem_set_caddyfile
    exact absurd (Option.some.inj (hprev.symm.trans hnew)) hset
  · intro r hr
    rw [hp.no_record] at hr
    cases hr
  · exact fun _ => hp.at_prev
  · exact fun _ => .inl hp.at_prev
  · exact fun _ _ _ => hp.at_prev
  · intro r hr
    rw [hp.no_record] at hr
    cases hr
  · exact fun _ _ _ _ => hp.at_prev

theorem Txn.Planned.filed (hp : t.Planned h w) : Filed t.record w := by
  refine ⟨?_, ?_⟩
  · intro ho res hres hterm
    rw [hp.unsettled ho res hres] at hterm
    cases hterm
  · intro ho p hw hterm
    rw [hp.unwritten ho p hw] at hterm
    cases hterm

theorem Txn.Planned.safe (hp : t.Planned h w) :
    Safe quiet (fun w => Inv h t.record w ∧ Filed t.record w) (install h t)
      (fun _ w => Inv h t.record w ∧ Filed t.record w) w := by
  refine Safe.assuming (Filed t.record)
    (fun e c w r w' hF _ happ => hF.apply happ) (fun _ _ _ henv => henv.elim)
    hp.filed ?_
  refine safe_install hp.inv ⟨_, _, rfl⟩ ?_ hp.at_prev ?_
  · exact ⟨hp.next_digest, hp.next_len, hp.env_digest, hp.env_len⟩
  · rintro ⟨res, hmem, -⟩
    rw [hp.unreported] at hmem
    cases hmem

/-- Every world a run of the transaction and its recoveries passes
through has the invariant. -/
theorem Txn.Planned.reach_inv {q : Config Answer Outcome World}
    (hp : t.Planned h w₀)
    (hreach : Reach quiet (reboot h) ⟨some (install h t), w₀⟩ q) :
    Inv h t.record q.world := by
  have hdrift : ∀ {w w'}, quiet.Drift w w' → w' = w := by
    intro w w' hd
    induction hd with
    | refl => rfl
    | tail _ hstep _ => exact hstep.elim
  refine (Effect.reach_inv
    (I := fun w => Inv h t.record w ∧ Filed t.record w) ?_ ?_ hreach
    ⟨⟨hp.inv, hp.filed⟩, ?_⟩).1
  · intro w w' _ henv
    exact henv.elim
  · -- a recovery, from whatever the run before it left
    rintro w p w' w'' ⟨hI, hF⟩ ⟨rfl, rfl⟩ hd
    rw [hdrift hd]
    have hF' : Filed t.record { w with wrote := fun _ => none } :=
      ⟨hF.out, fun _ _ hw => by cases hw⟩
    exact ⟨⟨hI.aside, hF'⟩, Safe.assuming (Filed t.record)
      (fun e c w r w' hF _ happ => hF.apply happ)
      (fun _ _ _ henv => henv.elim) hF' (safe_recoverTxn hI.aside)⟩
  · rintro p ⟨⟩ w' hd
    rw [hdrift hd]
    exact hp.safe

-- ====== settlement

/-- No rolling_back record is lost while txn.json says applied. -/
def keepsRollingBack : Call → Fate → World → Prop
  | .writeTxn r, .fail _, w =>
    r.phase = .rollingBack → ∀ old, w.txn = some old → old.phase ≠ .applied
  | _, _, _ => True

/-- A call that loses no such record taints nothing. -/
theorem untainted_apply {e : Call} {c : Fate} {r : Answer e} {w' : World}
    (hw : ¬w.Tainted) (hmay : keepsRollingBack e c w)
    (happ : apply e c w = some (r, w')) : ¬w'.Tainted := by
  rintro ⟨lost, old, hmem, hphase, hover⟩
  have hold : .recordLost lost (some old) ∈ w.log → False := fun hmem =>
    hw ⟨lost, old, hmem, hphase, hover⟩
  cases change_of_apply happ with
  | still | seen | remembered | filed | reported | dropped | cleaned =>
    exact hold hmem
  | file | written | removed | baseline =>
    rcases List.mem_cons.mp hmem with heq | hmem
    · cases heq
    · exact hold hmem
  | lost =>
    rcases List.mem_cons.mp hmem with heq | hmem
    · obtain ⟨rfl, htxn⟩ := Event.recordLost.inj heq
      exact hmay hphase old htxn.symm hover
    · exact hold hmem

/-- A planned install, with any crashes, failed writes, failed reloads
and recoveries that lose no rolling_back record over an applied one,
settles all or nothing: once txn.json is gone the set is all at its prev
or all at its new, the latter only if that was reported; and a failed or
rolled_back report means all at prev. -/
theorem settlement_atomic {q : Config Answer Outcome World}
    (hplan : t.Planned h w₀)
    (hreach : Reach (quiet.only keepsRollingBack) (reboot h)
      ⟨some (install h t), w₀⟩ q) (hgone : q.world.txn = none) :
    (AllPrev h t.record q.world ∨ AllNew h t.record q.world) ∧
      (¬AllPrev h t.record q.world →
        q.world.Reported (Result.advanced t.record)) ∧
      (q.world.Reported Result.reverted → AllPrev h t.record q.world) := by
  have hany : ∀ {w w' : World} (p : Act Outcome), ¬w.Tainted →
      (quiet.only keepsRollingBack).Drift w w' →
      Safe (quiet.only keepsRollingBack) (fun w => ¬w.Tainted) p
        (fun _ w => ¬w.Tainted) w' := by
    intro w w' p hw hd
    refine safe_of_calls _ ?_ (fun _ _ _ henv => henv.elim)
      (quiet_drift hd ▸ hw)
    intro e c w r w' hw hmay happ
    exact untainted_apply hw hmay.2 happ
  have hstart : ¬w₀.Tainted := by
    rintro ⟨r, old, hmem, -⟩
    rw [hplan.unlogged] at hmem
    cases hmem
  have hclean : ¬q.world.Tainted := by
    refine Effect.reach_inv (I := fun w => ¬w.Tainted) ?_ ?_ hreach
      ⟨hstart, fun p _ w' hd => hany p hstart hd⟩
    · intro w w' _ henv
      exact henv.elim
    · rintro w p w' w'' hw ⟨rfl, rfl⟩ hd
      have hw' : ¬({ w with wrote := fun _ => none } : World).Tainted := hw
      exact ⟨hw', hany _ hw' hd⟩
  have hL := (hplan.reach_inv hreach.of_only).ledger.resolve_left hclean
  have hsettled := hL.gone hgone
  refine ⟨hsettled.imp_right And.left, ?_, hL.reverted⟩
  intro hnot
  exact (hsettled.resolve_left hnot).2

-- ====== one push, spelled out

/-- SHA-256 of the five byte strings the push below has. -/
def pushDigest (d : Bytes) : Bytes :=
  if d = str "old" then
    str "cba06b5736faf67e54b07b561eae94395e774c517a7d910a54369e1263ccfbd4"
  else if d = str "new" then
    str "11507a0e2f5e69d5dfa40a62a1bd7b6ee57e6bcd85c67c9b8431b36fff21c437"
  else if d = str "A=1" then
    str "f1d316d330440dea46d96ad43f6562ff9411c1b84700794dcd584f18146a18f6"
  else if d = str "A=2" then
    str "fb86eaa732eae3d22187a250e693c909fc511ff108dd78c54c4117ea94569b4f"
  else
    str "e3b0c44298fc1c149afbf4c8996fb92427ae41e4649b934ca495991b7852b855"

def pushHost : Host where
  digest := pushDigest
  digest_isDigest := by
    intro d
    unfold pushDigest
    split
    · decide
    split
    · decide
    split
    · decide
    split <;> decide
  bound := id

/-- A push that changes the Caddyfile and the env file of one app. -/
def pushTxn : Txn where
  record :=
    { id := str "0123456789abcdef0123456789abcdef"
      origin := .applier
      phase := .installing
      commit := str "1111111111111111111111111111111111111111"
      path := str "Caddyfile"
      signer := str "op"
      prev := str "old"
      prevSHA256 := pushDigest (str "old")
      newSHA256 := pushDigest (str "new")
      diff := []
      apps := [str "app"]
      boxWebhook := []
      outOfBand := false
      error := []
      secrets := [⟨str "app", str "A=1", pushDigest (str "A=1"),
        pushDigest (str "A=2")⟩]
      secretsTree := str "2222222222222222222222222222222222222222"
      secretsInstalled := ⟨[(str "app", pushDigest (str "A=2"))], by decide⟩
      secretsAdded := []
      secretsChanged := [str "app/A"]
      secretsRemoved := []
      secretsOutOfBand := [] }
  next := str "new"
  nextEnv := fun _ => str "A=2"
  entry := some (str "0123456789abcdef0123456789abcdef")
  recorded := false
  named := []

def pushWorld : World where
  caddyfile := .file (str "old")
  env := fun app => if app = str "app" then .file (str "A=1") else .absent
  txn := none
  applied := none
  out := fun _ => none
  work := [str "0123456789abcdef0123456789abcdef"]
  wrote := fun _ => none
  reads := []
  log := []
  reports := []

theorem pushTxn_planned : pushTxn.Planned pushHost pushWorld where
  no_record := rfl
  at_prev := by decide +kernel
  next_digest := rfl
  next_len := by decide +kernel
  env_digest := by decide +kernel
  env_len := by decide +kernel
  env_prev := by decide +kernel
  listed := fun _ => by decide +kernel
  unsettled := fun _ _ hr => by cases hr
  unwritten := fun _ _ hp => by cases hp
  unreported := rfl
  unlogged := rfl

/-- The push with every call a success. -/
theorem settlement_atomic_applied : ∃ w : World, w.txn = none ∧
    (AllPrev pushHost pushTxn.record w ∨ AllNew pushHost pushTxn.record w) ∧
      (¬AllPrev pushHost pushTxn.record w →
        w.Reported (Result.advanced pushTxn.record)) ∧
      (w.Reported Result.reverted → AllPrev pushHost pushTxn.record w) := by
  have hmay : ∀ c ∈ List.replicate 17 Fate.ok, ∀ e w,
      (quiet.only keepsRollingBack).may e c w := by
    intro c hc e w
    obtain rfl := List.eq_of_mem_replicate hc
    exact ⟨trivial, by cases e <;> trivial⟩
  obtain ⟨p', w', hreach, hgone⟩ := exec_reach_world
    (S := quiet.only keepsRollingBack) (w := pushWorld)
    (p := install pushHost pushTxn) (f := fun w => w.txn.isNone)
    (reboot pushHost) (List.replicate 17 Fate.ok) hmay (by decide +kernel)
  have hnone : w'.txn = none := Option.isNone_iff_eq_none.mp hgone
  exact ⟨w', hnone, settlement_atomic pushTxn_planned hreach hnone⟩

/-- The push up to a full disk: the record `applied` lands but its fsync
fails, the record `rolling_back` cannot be written, the env file goes
back and the Caddyfile does not. -/
def fullDiskChoices : List Fate :=
  List.replicate 10 .ok ++ [.landed (str "fsync: input/output error"),
      .fail (str "no space left on device"), .ok, .ok, .ok,
      .fail (str "no space left on device"),
      .fail (str "no space left on device"), .ok]

/-- txn.json is gone and the push's set is neither all back nor all
new. -/
def goneMixed (w : World) : Bool :=
  w.txn.isNone && !decide (AllPrev pushHost pushTxn.record w) &&
    !decide (AllNew pushHost pushTxn.record w)

/-- After it the next run's recovery removes the record over a set that
is half at its prev and half at its new. -/
theorem mixed_after_lost_rolling_back :
    ∃ q : Config Answer Outcome World, pushTxn.Planned pushHost pushWorld ∧
      Reach quiet (reboot pushHost)
        ⟨some (install pushHost pushTxn), pushWorld⟩ q ∧
      q.world.txn = none ∧ ¬AllPrev pushHost pushTxn.record q.world ∧
      ¬AllNew pushHost pushTxn.record q.world := by
  obtain ⟨p₁, w₁, hreach₁, hw₁⟩ := exec_reach_world (S := quiet)
    (w := pushWorld) (p := install pushHost pushTxn)
    (f := fun w => (Prog.exec quiet (List.replicate 8 Fate.ok)
      (recoverTxn pushHost) { w with wrote := fun _ => none }).any
        fun x => goneMixed x.2)
    (reboot pushHost) fullDiskChoices (fun _ _ _ _ => trivial)
    (by decide +kernel)
  obtain ⟨p₂, w₂, hreach₂, hw₂⟩ := exec_reach_world (S := quiet)
    (f := goneMixed) (reboot pushHost) (List.replicate 8 Fate.ok)
    (fun _ _ _ _ => trivial) hw₁
  simp only [goneMixed, Bool.and_eq_true, Option.isNone_iff_eq_none,
    Bool.not_eq_eq_eq_not, Bool.not_true, decide_eq_false_iff_not] at hw₂
  obtain ⟨⟨hnone, hprev⟩, hnew⟩ := hw₂
  exact ⟨⟨some p₂, w₂⟩, pushTxn_planned,
    ((hreach₁.tail .crash).tail (.start ⟨rfl, rfl⟩)).trans hreach₂, hnone,
    hprev, hnew⟩

-- ====== no dangling

/-- At every instant of the swap, of any rollback and of any recovery,
the end of a run that a failed write stopped included, the Caddyfile on
disk names no env file that is not there. -/
theorem no_dangling_env_file {q : Config Answer Outcome World}
    (hplan : t.Planned h w₀) (hset : t.caddyfileInSet = true)
    (hreach : Reach quiet (reboot h) ⟨some (install h t), w₀⟩ q) :
    NoDangling h t.record q.world :=
  (hplan.reach_inv hreach).dangling ((caddyfileInSet_iff ⟨_, _, rfl⟩).mp hset)

/-- Half way through the rollback of the push above. -/
theorem no_dangling_env_file_rollback : ∃ w : World,
    AtNew pushHost pushTxn.record w .caddyfile ∧
      ¬AllNew pushHost pushTxn.record w ∧
      NoDangling pushHost pushTxn.record w := by
  obtain ⟨p', w', hreach, hw'⟩ := exec_reach_world (S := quiet)
    (w := pushWorld) (p := install pushHost pushTxn)
    (f := fun w => decide (AtNew pushHost pushTxn.record w .caddyfile) &&
      !decide (AllNew pushHost pushTxn.record w))
    (reboot pushHost) fullDiskChoices (fun _ _ _ _ => trivial)
    (by decide +kernel)
  simp only [Bool.and_eq_true, decide_eq_true_eq, Bool.not_eq_eq_eq_not,
    Bool.not_true, decide_eq_false_iff_not] at hw'
  exact ⟨w', hw'.1, hw'.2,
    no_dangling_env_file pushTxn_planned (by decide +kernel) hreach⟩

end Hotserve.Box
