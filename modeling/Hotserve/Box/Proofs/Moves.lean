/-
Each write of the swap and of the rollback keeps the invariant.

The order of the three groups (env files written, the Caddyfile, env
files removed; and back) is what the hypotheses here ask for: the
Caddyfile goes to its new only over every new env file, an env file goes
only once the Caddyfile that named it has gone.
-/
import Hotserve.Box.Proofs.Ledger

namespace Hotserve.Box

open Bytes Effect

variable {h : Host} {b : Record} {w : World} {e : EnvEntry} {ev : Event}

theorem mem_set_env (he : e ∈ b.secrets) : File.env e ∈ b.set :=
  .tail _ (List.mem_map_of_mem he)

theorem mem_set_caddyfile : File.caddyfile ∈ b.set := .head _

theorem mem_set {f : File} (hf : f ∈ b.set) :
    f = .caddyfile ∨ ∃ e ∈ b.secrets, f = .env e := by
  rcases List.mem_cons.mp hf with rfl | hf
  · exact .inl rfl
  · obtain ⟨e, he, rfl⟩ := List.mem_map.mp hf
    exact .inr ⟨e, he, rfl⟩

-- ====== what a write touches

theorem touches_env (hb : b.SetSound h) (he : e ∈ b.secrets) (s : Slot) :
    Touches h b (.env e) w ((w.note ev).setEnv e.app s) where
  files := by
    intro g hg hne
    rcases mem_set hg with rfl | ⟨e', he', rfl⟩
    · rfl
    · exact congrArg some (envDigest_setEnv_ne fun heq =>
        hne (congrArg File.env (hb.entry_eq he' he heq)))
  txn := rfl
  reports := rfl
  log := fun _ hmem => .tail _ hmem
  unlisted := by
    intro app hnot
    refine envDigest_setEnv_ne ?_
    rintro rfl
    exact hnot (List.mem_map_of_mem he)

theorem touches_caddyfile (s : Slot) :
    Touches h b .caddyfile w ((w.note ev).setCaddyfile s) where
  files := by
    intro g hg hne
    rcases mem_set hg with rfl | ⟨e', he', rfl⟩
    · exact absurd rfl hne
    · rfl
  txn := rfl
  reports := rfl
  log := fun _ hmem => .tail _ hmem
  unlisted := fun _ _ => rfl

/-- A write that failed without landing changes nothing but the log. -/
theorem Inv.note (hI : Inv h b w) (ev : Event) : Inv h b (w.note ev) :=
  { hI with
    dangling := fun hset => ⟨(hI.dangling hset).prev, (hI.dangling hset).new⟩
    ledger := by
      rcases hI.ledger with ht | hL
      · exact .inl (ht.of_log fun _ hmem => .tail _ hmem)
      · exact .inr ⟨hL.reverted, hL.gone, hL.no_change, hL.applied, hL.opened⟩ }

theorem Opened.note (ho : Opened w) (ev : Event) : Opened (w.note ev) :=
  ho.imp (fun ht => ht.of_log fun _ hmem => .tail _ hmem) id

theorem Opened.touch {f : File} {w' : World} (ho : Opened w)
    (ht : Touches h b f w w') : Opened w' := by
  rcases ho with htaint | ⟨r, hr, hp⟩
  · exact .inl (htaint.of_log ht.log)
  · exact .inr ⟨r, ht.txn.trans hr, hp⟩

-- ====== no dangling, write by write

/-- A file put at an env file's name leaves no name dangling. -/
theorem NoDangling.setEnv_file {app d : Bytes} (hd : NoDangling h b w) :
    NoDangling h b ((w.note ev).setEnv app (.file d)) := by
  have hfile : ∀ e : EnvEntry, (∃ d, w.env e.app = .file d) →
      ∃ d', ((w.note ev).setEnv app (.file d)).env e.app = .file d' := by
    rintro e ⟨d', hd'⟩
    by_cases happ : e.app = app
    · exact ⟨d, happ ▸ World.setEnv_env_self⟩
    · exact ⟨d', (World.setEnv_env_ne happ).trans hd'⟩
  exact ⟨fun hc e he hne => hfile e (hd.prev hc e he hne),
    fun hc e he hne => hfile e (hd.new hc e he hne)⟩

/-- An env file the Caddyfile on disk does not name may go. -/
theorem NoDangling.setEnv_absent {app : Bytes} (hd : NoDangling h b w)
    (hprev : AtPrev h b w .caddyfile → ∀ e ∈ b.secrets, e.prevSHA256 ≠ [] →
      e.app ≠ app)
    (hnew : AtNew h b w .caddyfile → ∀ e ∈ b.secrets, e.newSHA256 ≠ [] →
      e.app ≠ app) : NoDangling h b ((w.note ev).setEnv app .absent) where
  prev := fun hc e he hne => (hd.prev hc e he hne).imp fun _ hslot =>
    (World.setEnv_env_ne (hprev hc e he hne)).trans hslot
  new := fun hc e he hne => (hd.new hc e he hne).imp fun _ hslot =>
    (World.setEnv_env_ne (hnew hc e he hne)).trans hslot

section

variable (hb : b.SetSound h)
include hb

/-- An entry at its prev is a file, if it had one. -/
theorem file_of_atPrev (he : e ∈ b.secrets)
    (hne : e.prevSHA256 ≠ []) (hat : AtPrev h b w (.env e)) :
    ∃ d, w.env e.app = .file d := by
  have hdig : isDigest e.prevSHA256 = true := by
    rw [← (hb.entries e he).prev_digest hne]
    exact h.digest_isDigest _
  exact file_of_envDigest hdig (Option.some.inj hat)

theorem file_of_atNew (he : e ∈ b.secrets)
    (hne : e.newSHA256 ≠ []) (hat : AtNew h b w (.env e)) :
    ∃ d, w.env e.app = .file d :=
  file_of_envDigest ((hb.entries e he).new_digest hne) (Option.some.inj hat)

/-- The Caddyfile may go to its prev over every env file that had
bytes. -/
theorem noDangling_caddyfile_prev
    (hset : b.prevSHA256 ≠ b.newSHA256) {w' : World}
    (hat : AtPrev h b w' .caddyfile)
    (hfiles : ∀ e ∈ b.secrets, e.prevSHA256 ≠ [] → AtPrev h b w' (.env e)) :
    NoDangling h b w' where
  prev := fun _ e he hne => file_of_atPrev hb he hne (hfiles e he hne)
  new := by
    intro hnew
    exact absurd (Option.some.inj (hat.symm.trans hnew)) hset

/-- And to its new over every env file the push has. -/
theorem noDangling_caddyfile_new
    (hset : b.prevSHA256 ≠ b.newSHA256) {w' : World}
    (hat : AtNew h b w' .caddyfile)
    (hfiles : ∀ e ∈ b.secrets, e.newSHA256 ≠ [] → AtNew h b w' (.env e)) :
    NoDangling h b w' where
  prev := by
    intro hprev
    exact absurd (Option.some.inj (hprev.symm.trans hat)) hset
  new := fun _ e he hne => file_of_atNew hb he hne (hfiles e he hne)

/-- No other entry has the name of one without bytes on that side. -/
theorem Record.SetSound.app_ne {side : EnvEntry → Bytes}
    (he : e ∈ b.secrets) (hnil : side e = []) :
    ∀ e' ∈ b.secrets, side e' ≠ [] → e'.app ≠ e.app := by
  intro e' he' hne heq
  obtain rfl := hb.entry_eq he' he heq
  exact hne hnil

end

-- ====== rollback

section

variable (hI : Inv h b w) (ev : Event) (hb : b.SetSound h) (ho : Opened w)
include hI hb ho

/-- An env file that had bytes, back at them. -/
theorem Inv.putBack (he : e ∈ b.secrets) (hne : e.prevSHA256 ≠ []) :
    Inv h b ((w.note ev).setEnv e.app (.file e.prev)) ∧
      AtPrev h b ((w.note ev).setEnv e.app (.file e.prev)) (.env e) := by
  have hs := hb.entries e he
  have hat : AtPrev h b ((w.note ev).setEnv e.app (.file e.prev)) (.env e) :=
    congrArg some ((envDigest_setEnv_file (hs.prev_len hne)).trans
      (hs.prev_digest hne))
  exact ⟨hI.move (touches_env hb he _) ho (.inl hat)
    fun hset => (hI.dangling hset).setEnv_file, hat⟩

/-- An env file the push added, gone again once the Caddyfile that names
it is. -/
theorem Inv.unlinkBack (he : e ∈ b.secrets) (hnil : e.prevSHA256 = [])
    (hc : b.prevSHA256 ≠ b.newSHA256 → AtPrev h b w .caddyfile) :
    Inv h b ((w.note ev).setEnv e.app .absent) ∧
      AtPrev h b ((w.note ev).setEnv e.app .absent) (.env e) := by
  have hat : AtPrev h b ((w.note ev).setEnv e.app .absent) (.env e) :=
    congrArg some (envDigest_setEnv_absent.trans hnil.symm)
  refine ⟨hI.move (touches_env hb he _) ho (.inl hat) fun hset => ?_, hat⟩
  refine (hI.dangling hset).setEnv_absent ?_ ?_
  · exact fun _ => hb.app_ne he hnil
  · intro hnew
    exact absurd (Option.some.inj ((hc hset).symm.trans hnew)) hset

/-- The previous Caddyfile, back over every env file it named. -/
theorem Inv.restoreCaddyfile
    (hfiles : ∀ e ∈ b.secrets, e.prevSHA256 ≠ [] → AtPrev h b w (.env e)) :
    Inv h b ((w.note ev).setCaddyfile (.file b.prev)) ∧
      AtPrev h b ((w.note ev).setCaddyfile (.file b.prev)) .caddyfile := by
  have hat : AtPrev h b ((w.note ev).setCaddyfile (.file b.prev)) .caddyfile :=
    (caddyfileDigest_setCaddyfile hb.prev_len).trans
      (congrArg some hb.prev_digest)
  exact ⟨hI.move (touches_caddyfile _) ho (.inl hat) fun hset =>
    noDangling_caddyfile_prev hb hset hat hfiles, hat⟩

-- ====== the swap

/-- An env file of the push, at its rendered bytes. -/
theorem Inv.swapEnv {d : Bytes} (hend : ¬w.Ended) (he : e ∈ b.secrets)
    (hd : h.digest d = e.newSHA256) (hlen : d.length ≤ maxEnvRead) :
    Inv h b ((w.note ev).setEnv e.app (.file d)) ∧
      AtNew h b ((w.note ev).setEnv e.app (.file d)) (.env e) := by
  have hat : AtNew h b ((w.note ev).setEnv e.app (.file d)) (.env e) :=
    congrArg some ((envDigest_setEnv_file hlen).trans hd)
  exact ⟨hI.move (touches_env hb he _) ho (.inr ⟨hat, hend⟩)
    fun hset => (hI.dangling hset).setEnv_file, hat⟩

/-- An env file the push removes, gone once the new Caddyfile, which
does not name it, stands. -/
theorem Inv.swapUnlink (hend : ¬w.Ended) (he : e ∈ b.secrets)
    (hnil : e.newSHA256 = [])
    (hc : b.prevSHA256 ≠ b.newSHA256 → AtNew h b w .caddyfile) :
    Inv h b ((w.note ev).setEnv e.app .absent) ∧
      AtNew h b ((w.note ev).setEnv e.app .absent) (.env e) := by
  have hat : AtNew h b ((w.note ev).setEnv e.app .absent) (.env e) :=
    congrArg some (envDigest_setEnv_absent.trans hnil.symm)
  refine ⟨hI.move (touches_env hb he _) ho (.inr ⟨hat, hend⟩) fun hset => ?_,
    hat⟩
  refine (hI.dangling hset).setEnv_absent ?_ ?_
  · intro hprev
    exact absurd (Option.some.inj (hprev.symm.trans (hc hset))) hset
  · exact fun _ => hb.app_ne he hnil

/-- The new Caddyfile, over every env file it names. -/
theorem Inv.swapCaddyfile {d : Bytes} (hend : ¬w.Ended)
    (hd : h.digest d = b.newSHA256) (hlen : d.length ≤ maxCaddyfile)
    (hfiles : ∀ e ∈ b.secrets, e.newSHA256 ≠ [] → AtNew h b w (.env e)) :
    Inv h b ((w.note ev).setCaddyfile (.file d)) ∧
      AtNew h b ((w.note ev).setCaddyfile (.file d)) .caddyfile := by
  have hat : AtNew h b ((w.note ev).setCaddyfile (.file d)) .caddyfile :=
    (caddyfileDigest_setCaddyfile hlen).trans (congrArg some hd)
  exact ⟨hI.move (touches_caddyfile _) ho (.inr ⟨hat, hend⟩) fun hset =>
    noDangling_caddyfile_new hb hset hat hfiles, hat⟩

end

end Hotserve.Box
