/-
The handler's fast path and root's slow path.

# The invariant

What ties the two is what a completed push left in applied.json: its map
of env files is the digests of what the box's key opened of the commit's
secrets (`planSecrets_records`). A bundle of the same commit opens to the
same files (`Bundle.proveSecrets_same`), so a file that still has its
listed digest is the file root would write again.

# What the fast path does not read

`unchanged` reads the files in the secrets directory and not the
directory itself, which `planSecrets` checks first.
-/
import Hotserve.Bundle.Proofs.Same
import Hotserve.Box.Proofs.NoChange
import Hotserve.Box.Proofs.Plan

namespace Hotserve.Box

open Bytes Effect
open Liveswap (Quote)
open Bundle (Bundle Lib Secrets Stream readBundle proveFile chain carried
  NoCollision)

variable {h : Host} {lib : Lib} {quote : Quote} {j : Judge} {b : Bundle}
  {installed : Bytes} {base : Applied} {store : Store}

-- ====== what passes imply

/-- The checks without a signature prove the commit's secrets. -/
theorem checkUnsigned_secrets {c : Checked}
    (hc : checkUnsigned h lib j b installed base = .ok c) :
    provedSecrets lib b = .ok c.secrets := by
  obtain ⟨cur, -, hc⟩ := Except.bind_eq_ok.mp hc
  obtain ⟨next, -, hc⟩ := Except.bind_eq_ok.mp hc
  obtain ⟨-, hc⟩ := Except.check_eq_ok.mp hc
  obtain ⟨-, hc⟩ := Except.check_eq_ok.mp hc
  obtain ⟨-, hc⟩ := Except.check_eq_ok.mp hc
  obtain ⟨s, hs, hc⟩ := Except.bind_eq_ok.mp hc
  obtain ⟨ch, -, hc⟩ := Except.bind_eq_ok.mp hc
  cases hc
  exact hs

theorem checkSigned_sums {c : Checked} {vd : Verdict}
    (hc : checkSigned h j b installed base c = .ok vd) :
    vd.prevSum = h.digest installed ∧ vd.newSum = h.digest b.caddyfile ∧
      vd.secrets = c.secrets := by
  obtain ⟨signer, -, hc⟩ := Except.bind_eq_ok.mp hc
  obtain ⟨key, -, hc⟩ := Except.bind_eq_ok.mp hc
  obtain ⟨-, hc⟩ := Except.check_eq_ok.mp hc
  cases hc
  exact ⟨rfl, rfl, rfl⟩

/-- What a push that was prepared has proven and planned. -/
theorem prepare_planned {id : Bytes} {t : Txn}
    (ht : prepare h lib quote j id b installed base store = .ok t) :
    ∃ vd plan, t = prepared j id b installed vd plan ∧
      vd.prevSum = h.digest installed ∧ vd.newSum = h.digest b.caddyfile ∧
      provedSecrets lib b = .ok vd.secrets ∧
      planSecrets h quote store vd.secrets base b.path = .ok plan := by
  obtain ⟨vd, hvd, ht⟩ := Except.bind_eq_ok.mp ht
  obtain ⟨plan, hplan, ht⟩ := Except.bind_eq_ok.mp ht
  obtain ⟨c, hc, hsigned⟩ :=
    Except.bind_eq_ok.mp (Except.mapError_eq_ok.mp hvd)
  obtain ⟨hprev, hnew, hsecrets⟩ := checkSigned_sums hsigned
  refine ⟨vd, plan, (Except.ok.inj ht).symm, hprev, hnew, ?_,
    Except.mapError_eq_ok.mp hplan⟩
  rw [hsecrets]
  exact checkUnsigned_secrets hc

/-- What the fast path has established when it answers. -/
structure Answered (h : Host) (lib : Lib) (b : Bundle) (installed : Bytes)
    (base : Applied) (env : Bytes → Except Bytes Bytes) (s : Secrets) :
    Prop where
  commit : b.commit.id = base.sha
  path : b.path = base.path
  digest : h.digest b.caddyfile = h.digest installed
  file : proveFile lib b.commit b.trees b.path b.caddyfile = .ok ()
  secrets : provedSecrets lib b = .ok s
  tree : s.tree = base.secretsTree
  count : s.apps.length = base.secrets.entries.length
  env : ∀ p ∈ base.secrets.entries, env p.1 = .ok p.2
  chained : ∃ commits, chain b.commit b.parents base.sha = .ok commits

variable {env : Bytes → Except Bytes Bytes} {s : Secrets}

theorem unchanged_answered (hun : unchanged h lib b installed base env = true) :
    ∃ s, Answered h lib b installed base env s := by
  unfold unchanged at hun
  cases hs : provedSecrets lib b with
  | error e => simp [hs] at hun
  | ok s =>
    simp only [hs, Bool.and_eq_true, beq_iff_eq, List.all_eq_true] at hun
    obtain ⟨⟨⟨⟨hcommit, hpath⟩, hdigest⟩, hfile⟩, ⟨⟨⟨htree, hcount⟩, -⟩,
      henv⟩, hchain⟩ := hun
    obtain ⟨⟨⟩, hfile⟩ := Except.isOk_iff.mp hfile
    refine ⟨s, hcommit, hpath, hdigest, hfile, hs, htree, hcount, ?_,
      Except.isOk_iff.mp hchain⟩
    intro p hp
    exact Except.toOption_eq_some.mp (henv p hp)

/-- With the file as installed, a walk that reads it is all the checks
without a signature still need. -/
theorem Answered.checkUnsigned {cur : Shape}
    (ha : Answered h lib b installed base env s)
    (hsame : b.caddyfile = installed) (hwalk : j.walk installed = .ok cur) :
    ∃ c, checkUnsigned h lib j b installed base = .ok c ∧ c.secrets = s := by
  obtain ⟨commits, hchain⟩ := ha.chained
  refine ⟨⟨cur, cur, s, commits⟩, ?_, rfl⟩
  unfold Box.checkUnsigned
  rw [hsame, hwalk, ← hsame, ha.file, ha.secrets, hchain, ha.path]
  simp [Except.mapError, refuseIf, bind, Except.bind, pure, Except.pure]

-- ====== the last push

/-- An opening reads the key, and of the secrets the apps. -/
theorem openAll_congr {store' : Store} {s' : Secrets} {path : Bytes}
    (hid : store.identity = store'.identity) (happs : s.apps = s'.apps) :
    openAll h quote store s path = openAll h quote store' s' path := by
  unfold openAll openSecrets
  rw [hid, happs]

/-- applied.json as a completed push of the applier left it, on a box
whose key is still the one it had. -/
structure LastPush (h : Host) (lib : Lib) (quote : Quote)
    (identity : Except IdentityErr Key) (base : Applied) (last : Bundle) :
    Prop where
  read : ∃ stream, readBundle lib stream = .ok last
  prepared : ∃ j id installed was store t,
    prepare h lib quote j id last installed was store = .ok t ∧
      store.identity = identity ∧ base = t.record.baseline
  /-- `putApplied` writes no other. -/
  valid : base.valid = .ok ()

/-- What the box's key opens of the bundle is what applied.json lists. -/
theorem LastPush.opened {last : Bundle} {stream : Option Stream}
    (hlast : LastPush h lib quote store.identity base last)
    (hread : readBundle lib stream = .ok b)
    (hdistinct : NoCollision lib (carried b.trees b.blobs ++
      carried last.trees last.blobs))
    (ha : Answered h lib b installed base env s) :
    ∃ opened, openAll h quote store s b.path = .ok opened ∧
      base.secrets = digests h opened := by
  obtain ⟨stream₀, hread₀⟩ := hlast.read
  obtain ⟨j₀, id₀, installed₀, was, store₀, t₀, ht₀, hidentity, hbase⟩ :=
    hlast.prepared
  obtain ⟨vd₀, plan₀, rfl, -, -, hs₀, hplan₀⟩ := prepare_planned ht₀
  obtain ⟨hplanned, opened, hopened, hinstalled⟩ :=
    planSecrets_records hplan₀
  have hsha : base.sha = last.commit.id := congrArg Applied.sha hbase
  have hpath : base.path = last.path := congrArg Applied.path hbase
  have htree : base.secretsTree = plan₀.tree :=
    congrArg Applied.secretsTree hbase
  have hsecrets : base.secrets = plan₀.installed :=
    congrArg Applied.secrets hbase
  have hpaths : b.path = last.path := ha.path.trans hpath
  have hproved := Except.mapError_eq_ok.mp ha.secrets
  have hproved₀ := Except.mapError_eq_ok.mp hs₀
  rw [← hpaths] at hproved₀
  have happs : s.apps = vd₀.secrets.apps := by
    refine Bundle.proveSecrets_same
      ⟨Bundle.readBundle_admitted hread, Bundle.readBundle_admitted hread₀,
        hdistinct⟩ (ha.commit.trans hsha) ?_ hproved hproved₀
    rw [ha.tree, htree, hplanned]
  refine ⟨opened, ?_, hsecrets.trans hinstalled⟩
  rw [openAll_congr hidentity.symm happs, hpaths]
  exact hopened

/-- The files SHA-256 is asked to tell apart: the two Caddyfiles, what
stands in the secrets directory as root writes it, and what the box's key
opens. -/
def AtHand (h : Host) (quote : Quote) (lib : Lib) (b : Bundle)
    (installed : Bytes) (store : Store) (data : Bytes) : Prop :=
  data = b.caddyfile ∨ data = installed ∨
    (∃ app, store.env app = .file data true) ∨
    ∃ s opened, provedSecrets lib b = .ok s ∧
      openAll h quote store s b.path = .ok opened ∧
      data ∈ opened.map OpenedApp.file

/-- No two files at hand share a digest. -/
def ToldApart (h : Host) (P : Bytes → Prop) : Prop :=
  ∀ x y, P x → P y → h.digest x = h.digest y → x = y

/-- A digest the handler took is of a file as root writes it. -/
theorem handlerDigest_ok {e : EnvAt} {d : Bytes}
    (he : e.handlerDigest h = .ok d) :
    ∃ data, e = .file data true ∧ data.length ≤ maxEnvRead ∧
      h.digest data = d := by
  unfold EnvAt.handlerDigest at he
  split at he
  next data =>
    obtain ⟨hfits, ⟨⟩⟩ := passed he
    exact ⟨data, rfl, Nat.not_lt.mp hfits, rfl⟩
  all_goals cases he

/-- Every app of the bundle stands on disk as the key opens it. -/
theorem Answered.unmoved {opened : List OpenedApp}
    (ha : Answered h lib b installed base
      (fun app => (store.env app).handlerDigest h) s)
    (happart : ToldApart h (AtHand h quote lib b installed store))
    (hopened : openAll h quote store s b.path = .ok opened)
    (hbase : base.secrets = digests h opened) :
    ∀ o ∈ opened, Unmoved h base store o := by
  intro o ho
  have hnodup : ((opened.map fun o => (o.name, h.digest o.file)).map
      Prod.fst).Nodup := by
    refine StrMap.nodup_of_length ?_
    rw [List.length_map, openAll_length hopened, ha.count, hbase, digests]
  have hlisted : base.secrets.get? o.name = some (h.digest o.file) := by
    rw [hbase]
    exact StrMap.get?_ofPairs hnodup (List.mem_map.mpr ⟨o, ho, rfl⟩)
  obtain ⟨data, hstands, hfits, hdigest⟩ := handlerDigest_ok
    (ha.env (o.name, h.digest o.file) (StrMap.get?_eq_some_iff.mp hlisted))
  have hdata : data = o.file := by
    refine happart data o.file (.inr (.inr (.inl ⟨o.name, hstands⟩))) ?_
      hdigest
    exact .inr (.inr (.inr ⟨s, opened, ha.secrets, hopened,
      List.mem_map_of_mem ho⟩))
  subst hdata
  exact ⟨hstands, hfits, hlisted⟩

-- ====== the transaction

theorem provedSecrets_path (hs : provedSecrets lib b = .ok s) :
    ∃ parts, splitPath b.path = .ok parts := by
  obtain ⟨parts, hparts, -⟩ :=
    Except.bind_eq_ok.mp (Except.mapError_eq_ok.mp hs)
  unfold Bundle.splitPath at hparts
  split at hparts
  · cases hparts
  next parts' hsplit => exact ⟨parts', hsplit⟩

-- ====== the two paths agree

/-- The world's files are those the plan and the handler read. -/
structure Stands (installed : Bytes) (store : Store) (w : World) : Prop where
  caddyfile : w.caddyfileRead = .ok installed
  env : ∀ app data ours, store.env app = .file data ours →
    w.env app = .file data

section

variable (ha : Answered h lib b installed base
  (fun app => (store.env app).handlerDigest h) s)
include ha

/-- The digest applied.json lists is of the file a read finds. -/
theorem Answered.listed {w : World} (hstands : Stands installed store w) :
    ∀ p ∈ base.secrets.entries, ∃ data,
      w.envRead p.1 = .ok ⟨true, true, data⟩ ∧ h.digest data = p.2 := by
  intro p hp
  obtain ⟨data, hfile, hfits, hdigest⟩ := handlerDigest_ok (ha.env p hp)
  refine ⟨data, ?_, hdigest⟩
  rw [World.envRead, hstands.env p.1 data true hfile]
  exact if_pos hfits

/-- The transaction root makes of a plan to do nothing is idle. -/
theorem Answered.idle {w : World} {id : Bytes} {t : Txn}
    (hsame : b.caddyfile = installed) (hvalid : base.valid = .ok ())
    (hplan : planSecrets h quote store s base b.path =
      .ok { SecretsPlan.blank s.tree with installed := base.secrets })
    (hid : isRequestID id = true) (hstands : Stands installed store w)
    (ht : prepare h lib quote j id b installed base store = .ok t) :
    Idle h t w ∧ t.record.baseline.valid = .ok () := by
  obtain ⟨vd, plan, rfl, hprev, hnew, hs, hplan'⟩ := prepare_planned ht
  obtain rfl : s = vd.secrets := Except.ok.inj (ha.secrets.symm.trans hs)
  obtain rfl := Except.ok.inj (hplan.symm.trans hplan')
  obtain ⟨hsha, hmanaged⟩ := Except.check_eq_ok.mp hvalid
  rw [failIf_eq_ok, Bool.not_eq_false', ← ha.commit] at hsha
  rw [← ha.tree] at hmanaged
  have hfits : installed.length ≤ maxCaddyfile := by
    have hread := hstands.caddyfile
    unfold World.caddyfileRead at hread
    split at hread
    · cases hread
    · split at hread
      next hle =>
        cases hread
        exact hle
      · cases hread
    · cases hread
  have hsettled : ((prepared j id b installed vd
      { SecretsPlan.blank vd.secrets.tree with
        installed := base.secrets }).atPhase .noChange).record.Settled h :=
    { phase := rfl
      id := hid
      commit := hsha
      path := provedSecrets_path hs
      fits := hfits
      prev := hprev
      new := hnew.trans ha.digest
      managed := hmanaged
      set := rfl
      added := rfl
      changed := rfl
      removed := rfl
      outOfBand := rfl }
  refine ⟨⟨rfl, hsame.symm, rfl, hsettled.valid, ?_, ha.listed hstands⟩, ?_⟩
  · rw [hstands.caddyfile, ← hsame]
    rfl
  · refine Except.check_eq_ok.mpr ⟨?_, hmanaged⟩
    rw [failIf_eq_ok, Bool.not_eq_false']
    exact hsha

end

/-- Where the fast path answers no_change and the secrets directory is as
tmpfiles.d makes it, every check without a signature passes, the plan is
to do nothing, and a transaction root makes of the bundle writes no file
and ends no_change. -/
theorem unchanged_agrees {last : Bundle} {stream : Option Stream}
    {cur : Shape} (hlast : LastPush h lib quote store.identity base last)
    (hread : readBundle lib stream = .ok b)
    (hdistinct : NoCollision lib (carried b.trees b.blobs ++
      carried last.trees last.blobs))
    (happart : ToldApart h (AtHand h quote lib b installed store))
    (hwalk : j.walk installed = .ok cur)
    (hdir : base.secrets.entries ≠ [] → store.dir = .ok ())
    (hun : unchanged h lib b installed base
      (fun app => (store.env app).handlerDigest h) = true) :
    ∃ c plan, checkUnsigned h lib j b installed base = .ok c ∧
      planSecrets h quote store c.secrets base b.path = .ok plan ∧
      plan.entries = [] ∧ plan.added = [] ∧ plan.changed = [] ∧
      plan.removed = [] ∧ plan.oob = [] ∧ plan.installed = base.secrets ∧
      ∀ id t, isRequestID id = true →
        prepare h lib quote j id b installed base store = .ok t →
        (install h t).All Call.leavesFiles ∧ ∀ w, Stands installed store w →
            Ends (install h t) w (.ok (some (t.result .noChange []))) := by
  obtain ⟨s, ha⟩ := unchanged_answered hun
  have hsame : b.caddyfile = installed :=
    happart _ _ (.inl rfl) (.inr (.inl rfl)) ha.digest
  obtain ⟨c, hc, rfl⟩ := ha.checkUnsigned hsame hwalk
  obtain ⟨opened, hopened, hbase⟩ := hlast.opened hread hdistinct ha
  have hplan := planSecrets_unmoved hdir hopened
    (ha.unmoved happart hopened hbase) hbase
  refine ⟨c, _, hc, hplan, rfl, rfl, rfl, rfl, rfl, rfl, ?_⟩
  intro id t hid ht
  constructor
  · obtain ⟨vd, plan, rfl, -, -, hs, hplan'⟩ := prepare_planned ht
    obtain hcs := Except.ok.inj (ha.secrets.symm.trans hs)
    rw [← hcs] at hplan'
    obtain rfl := Except.ok.inj (hplan.symm.trans hplan')
    exact leavesFiles_install hsame.symm rfl
  · intro w hstands
    obtain ⟨hidle, happlied⟩ :=
      ha.idle hsame hlast.valid hplan hid hstands ht
    exact hidle.ends_install happlied

-- ====== an example

open Bundle (exampleBundle exampleLib exampleFile exampleStream
  exampleSecretsDir exampleSecret)

/-- The one app's env file, as the box's key opens it. -/
def webEnv : Bytes := envFileHeader ++ str "KEY=\"age\"\n"

/-- SHA-256 of the files of the example. -/
def caddyHost : Host where
  digest := fun b => str <|
    if b = exampleFile.raw then
      "b8e7453371a024daae06f3164492c0afcde134c7747c155b3d83c20de341e855"
    else if b = webEnv then
      "56a744e5cb6aa9d293de085176e5e9ad28d4b7047f73f3f0e08d2cb0e5ce05fe"
    else "e3b0c44298fc1c149afbf4c8996fb92427ae41e4649b934ca495991b7852b855"
  digest_isDigest := fun b => by
    split
    · decide
    split <;> decide
  bound := id

/-- A judge that reads every file as one box's and trusts one key. -/
def exampleJudge : Judge where
  walk := fun _ => .ok ⟨str "a.example", [⟨str "me", [], [1], []⟩], [str "web"]⟩
  verifyChain := fun _ _ _ _ => .ok (str "me")
  signatureKey := fun _ => .ok [1]
  caddyfileDiff := fun _ _ => []

/-- A box whose directory checks as `dir` and whose env files are
`env`. -/
def exampleStore (dir : Except PlanErr Unit) (web : EnvAt) : Store where
  dir := dir
  identity := .ok ⟨str "age1", fun data => .payload (some data)⟩
  env := fun app => if app = str "web" then web else .absent

/-- applied.json before the first push: HEAD, with no secrets. -/
def exampleWas : Applied where
  sha := exampleBundle.commit.id
  path := str "Caddyfile"
  sha256 := caddyHost.digest exampleFile.raw
  signer := str "init"
  secretsTree := []
  secrets := .empty

/-- And after it. -/
def exampleBase : Applied :=
  { exampleWas with
    signer := str "me"
    secretsTree := exampleSecretsDir.id exampleLib
    secrets := .ofPairs [(str "web", caddyHost.digest webEnv)] }

/-- The checks of the example bundle against either baseline. -/
def exampleVerdict : Verdict where
  signer := str "me"
  host := str "a.example"
  apps := [str "web"]
  prevSum := caddyHost.digest exampleFile.raw
  newSum := caddyHost.digest exampleFile.raw
  outOfBand := false
  secrets := ⟨exampleSecretsDir.id exampleLib,
    [⟨str "web", [⟨str "KEY", exampleSecret.id exampleLib,
      str "age"⟩]⟩]⟩

def exampleOpened : List OpenedApp := [⟨str "web", [str "KEY"], webEnv⟩]

section

variable (dir : Except PlanErr Unit)
include dir

theorem exampleStore_opens (web : EnvAt) :
    openAll caddyHost id (exampleStore dir web) exampleVerdict.secrets
      (str "Caddyfile") = .ok exampleOpened := by
  have hopened : openAll caddyHost id (exampleStore (.ok ()) .absent)
      exampleVerdict.secrets (str "Caddyfile") = .ok exampleOpened := by
    decide +kernel
  exact hopened

/-- The first push left `exampleBase`. -/
theorem exampleBase_lastPush (web : EnvAt) :
    LastPush caddyHost exampleLib id (exampleStore dir web).identity
      exampleBase exampleBundle where
  read := ⟨some exampleStream, by decide +kernel⟩
  prepared := by
    have hcheck : check caddyHost exampleLib exampleJudge
        exampleBundle exampleFile.raw exampleWas =
          .ok exampleVerdict := by decide +kernel
    have hplan : ∃ plan, planSecrets caddyHost id
        (exampleStore (.ok ()) .absent) exampleVerdict.secrets exampleWas
          exampleBundle.path = .ok plan := by
      rw [← Except.isOk_iff]
      decide +kernel
    obtain ⟨plan, hplan⟩ := hplan
    obtain ⟨htree, opened, hopened, hinstalled⟩ := planSecrets_records hplan
    obtain rfl := Except.ok.inj ((exampleStore_opens _ _).symm.trans hopened)
    refine ⟨exampleJudge, [], exampleFile.raw, exampleWas,
      exampleStore (.ok ()) .absent, prepared exampleJudge []
        exampleBundle exampleFile.raw exampleVerdict plan,
      ?_, rfl, ?_⟩
    · refine Except.bind_eq_ok.mpr ⟨exampleVerdict, ?_, ?_⟩
      · exact Except.mapError_eq_ok.mpr hcheck
      · exact Except.bind_eq_ok.mpr
          ⟨plan, Except.mapError_eq_ok.mpr hplan, rfl⟩
    · have hbase : exampleBase = { exampleBase with
            secretsTree := plan.tree
            secrets := plan.installed } := by
        rw [htree, hinstalled]
        rfl
      rw [hbase]
      rfl
  valid := by decide +kernel

/-- The files of the example are its Caddyfile and its env file. -/
theorem example_told_apart :
    ToldApart caddyHost (AtHand caddyHost id exampleLib
      exampleBundle exampleFile.raw
      (exampleStore dir (.file webEnv true))) := by
  have hfiles : ∀ data, AtHand caddyHost id exampleLib
      exampleBundle exampleFile.raw
      (exampleStore dir (.file webEnv true)) data →
      data = exampleFile.raw ∨ data = webEnv := by
    rintro data (rfl | rfl | ⟨app, happ⟩ | ⟨s, opened, hs, hopened, hdata⟩)
    · exact .inl rfl
    · exact .inl rfl
    · rw [exampleStore] at happ
      dsimp only at happ
      split at happ
      · cases happ
        exact .inr rfl
      · cases happ
    · have hproved : provedSecrets exampleLib exampleBundle =
          .ok exampleVerdict.secrets := by decide +kernel
      obtain rfl := Except.ok.inj (hproved.symm.trans hs)
      obtain rfl := Except.ok.inj ((exampleStore_opens _ _).symm.trans hopened)
      exact .inr (List.mem_singleton.mp hdata)
  intro x y hx hy hxy
  have hne : caddyHost.digest exampleFile.raw ≠
      caddyHost.digest webEnv := by decide +kernel
  obtain rfl | rfl := hfiles x hx
  · obtain rfl | rfl := hfiles y hy
    · rfl
    · exact absurd hxy hne
  · obtain rfl | rfl := hfiles y hy
    · exact absurd hxy.symm hne
    · rfl

end

/-- The push again, with nothing moved: the plan is to do nothing. -/
theorem unchanged_agrees_example :
    unchanged caddyHost exampleLib exampleBundle
        exampleFile.raw exampleBase
        (fun app => ((exampleStore (.ok ()) (.file webEnv true)).env
          app).handlerDigest caddyHost) = true ∧
      ∃ c plan, checkUnsigned caddyHost exampleLib exampleJudge
          exampleBundle exampleFile.raw exampleBase = .ok c ∧
        planSecrets caddyHost id (exampleStore (.ok ()) (.file webEnv true))
          c.secrets exampleBase exampleBundle.path = .ok plan ∧
        plan.entries = [] ∧ plan.installed = exampleBase.secrets := by
  have hun : unchanged caddyHost exampleLib exampleBundle
      exampleFile.raw exampleBase
      (fun app => ((exampleStore (.ok ()) (.file webEnv true)).env
        app).handlerDigest caddyHost) = true := by decide +kernel
  have hread : readBundle exampleLib (some exampleStream) =
      .ok exampleBundle := by decide +kernel
  have hdistinct : NoCollision exampleLib
      (carried exampleBundle.trees exampleBundle.blobs ++
        carried exampleBundle.trees exampleBundle.blobs) := by
    unfold NoCollision
    decide +kernel
  have hwalk : exampleJudge.walk exampleFile.raw = .ok _ := rfl
  obtain ⟨c, plan, hc, hplan, hentries, -, -, -, -, hinstalled, -⟩ :=
    unchanged_agrees (exampleBase_lastPush _ _) hread hdistinct
      (example_told_apart _) hwalk (fun _ => rfl) hun
  exact ⟨hun, c, plan, hc, hplan, hentries, hinstalled⟩

/-- The same with the directory's mode drifted: the fast path answers
no_change, and root fails. -/
theorem unchanged_misses_directory : LastPush caddyHost exampleLib id
        (exampleStore (.error (.failure msgSecretsDir))
          (.file webEnv true)).identity exampleBase exampleBundle ∧
      readBundle exampleLib (some exampleStream) =
        .ok exampleBundle ∧
      unchanged caddyHost exampleLib exampleBundle
        exampleFile.raw exampleBase
        (fun app => ((exampleStore (.error (.failure msgSecretsDir))
          (.file webEnv true)).env app).handlerDigest caddyHost) = true ∧
      planSecrets caddyHost id (exampleStore
          (.error (.failure msgSecretsDir)) (.file webEnv true))
        exampleVerdict.secrets exampleBase exampleBundle.path =
          .error (.failure msgSecretsDir) := by
  refine ⟨exampleBase_lastPush _ _, ?_, ?_, ?_⟩
  · decide +kernel
  · decide +kernel
  · decide +kernel

end Hotserve.Box
