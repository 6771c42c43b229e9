import Covenant.Build
import Covenant.Proofs.Program.Assets
import Covenant.Proofs.Store.Entries
import Covenant.Proofs.Store.Key

/-!
# When a store cannot be seen in the answers

Builders that share a store answer a call with an output that an earlier call left there.  They
should answer what compiling would give.  Whether they do is a question about keys: the store is
transparent to some calls exactly when calls with one key text have one output.
-/

namespace Covenant

open List

/-- A source given to a builder at some time. -/
structure Call where
  builder : Builder
  now : Nat := 0
  filename : Bytes := []
  source : Bytes

namespace Call

variable (c : Call)

def keyText : Bytes :=
  Store.keyText compilerVersion c.builder.target c.builder.assets c.source

def key : Bytes :=
  c.builder.key c.source

theorem key_eq_hex : c.key = Sha256.hex c.keyText :=
  rfl

/-- What compiling gives for the assets, the target and the source of the call. -/
def compiled : Option Bytes :=
  (({ assets := c.builder.assets, target := c.builder.target } : Options).compile
    c.source).toOption

/-- The call with the store `s`: its answer, and the store after it. -/
def on (s : Store) : Except Failure Builder.Output × Store :=
  let r := { c.builder with store := some s }.transpile c.now c.filename c.source
  (r.1, r.2.2.store.getD s)

def isSeparable : Bool :=
  !c.builder.target.contains 0 && Store.areSeparable c.builder.assets

end Call

def outputOf (r : Except Failure Builder.Output) : Option Bytes :=
  r.toOption.map Builder.Output.text

/-- The outputs of calls made one after the other on the store `s`. -/
def outputs : (s : Store) → List Call → List (Option Bytes)
  | _, [] => []
  | s, c :: cs => outputOf (c.on s).1 :: outputs (c.on s).2 cs

/-! ### One call -/

namespace Call

variable {c d : Call}

theorem toOption_compile_filename (c : Call) :
    ((c.builder.options c.filename).compile c.source).toOption = c.compiled := by
  refine Options.toOption_compile_congr ?_ (fun _ => ?_) c.source
  · rfl
  · exact Iff.rfl

theorem on_hit (h : (s.get c.now c.key).1 = .ok (some text)) :
    c.on s = (.ok { text, cached := true }, (s.get c.now c.key).2) := by
  rcases hg : s.get c.now c.key with ⟨found, s'⟩
  rw [hg] at h
  have hlook : s.get c.now ({ c.builder with store := some s }.key c.source) = (found, s') := hg
  simp only [on, Builder.transpile, Builder.lookUp, hlook]
  simp only at h
  simp only [h, Option.getD_some]

theorem on_miss (h : ∀ text, (s.get c.now c.key).1 ≠ .ok (some text)) : c.on s =
      match (c.builder.options c.filename).compile c.source with
      | .error f => (.error f, (s.get c.now c.key).2)
      | .ok text =>
        (.ok { text },
          ((s.get c.now c.key).2.put c.now (c.builder.gauge (s.get c.now c.key).2) c.key c.filename
            text).2) := by
  rcases hg : s.get c.now c.key with ⟨found, s'⟩
  rw [hg] at h
  have hlook : s.get c.now ({ c.builder with store := some s }.key c.source) = (found, s') := hg
  have hnone : ∃ log, { c.builder with store := some s }.lookUp c.now c.filename c.source =
      (none, log, { c.builder with store := some s' }) := by
    simp only [Builder.lookUp, hlook]
    match found, h with
    | .error e, _ | .ok none, _ => exact ⟨_, rfl⟩
    | .ok (some text), h => exact absurd rfl (h text)
  obtain ⟨log, hnone⟩ := hnone
  simp only [on, Builder.transpile, hnone]
  have hopt : { c.builder with store := some s' }.options c.filename =
    c.builder.options c.filename := rfl
  rw [hopt]
  cases (c.builder.options c.filename).compile c.source <;> rfl

end Call

/-! ### Runs -/

section

variable (P : Call → Prop)

/-- Every entry was compiled for one of the calls `P`, under its key, and is not empty. -/
def Store.From (s : Store) : Prop :=
  ∀ e ∈ s.entries, ∃ c, P c ∧ e.1 = c.key ∧ c.compiled = some e.2 ∧ e.2 ≠ []

def DigestsDiffer : Prop :=
  ∀ c d, P c → P d → Sha256.hex c.keyText = Sha256.hex d.keyText → c.keyText = d.keyText

/-- An output that is kept for one of the calls `P` is the output of all that have its key text. -/
def KeysDecide : Prop :=
  ∀ c d, P c → P d → c.keyText = d.keyText →
    ∀ text, text ≠ [] → c.compiled = some text → d.compiled = some text

/-- Whatever calls `P` are made on a new store, they answer what compiling gives. -/
def Transparent : Prop :=
  ∀ (s : Store) (cs : List Call), s.rows = [] → (∀ c ∈ cs, P c) →
    outputs s cs = cs.map Call.compiled

variable {P} {s : Store}

theorem Store.from_of_rows_eq_nil (h : s.rows = []) : s.From P := by
  intro e he
  rw [entries_eq_nil h] at he
  exact absurd he not_mem_nil

theorem Store.From.on (hs : s.From P) (hc : P c) : (c.on s).2.From P := by
  have hget : (s.get c.now c.key).2.From P := fun e he => hs e (entries_get_subset he)
  by_cases hit : ∃ text, (s.get c.now c.key).1 = .ok (some text)
  · obtain ⟨text, hit⟩ := hit
    rw [Call.on_hit hit]
    exact hget
  · rw [Call.on_miss (not_exists.mp hit)]
    -- the one entry that a miss can bring in was compiled for `c` just now
    cases hcomp : (c.builder.options c.filename).compile c.source with
    | error f => exact hget
    | ok text =>
      intro e he
      rcases mem_entries_put he with hold | ⟨rfl, hne⟩
      · exact hget e hold
      · refine ⟨c, hc, rfl, ?_, hne⟩
        rw [← c.toOption_compile_filename, hcomp]
        rfl

theorem Call.outputOf_on (hd : DigestsDiffer P) (hk : KeysDecide P) (hs : s.From P) (hc : P c) :
    outputOf (c.on s).1 = c.compiled := by
  by_cases hit : ∃ text, (s.get c.now c.key).1 = .ok (some text)
  · obtain ⟨text, hit⟩ := hit
    -- the output was compiled for some `d` whose key, and so whose key text, is that of `c`
    obtain ⟨d, hPd, hkey, hcomp, hne⟩ := hs _ (Store.mem_entries_of_get hit)
    have htext : d.keyText = c.keyText := hd d c hPd hc hkey.symm
    rw [on_hit hit]
    exact (hk d c hPd hc htext text hne hcomp).symm
  · rw [on_miss (not_exists.mp hit), ← c.toOption_compile_filename]
    cases (c.builder.options c.filename).compile c.source <;> rfl

theorem outputs_of_from (hd : DigestsDiffer P) (hk : KeysDecide P) (cs : List Call) :
    ∀ s : Store, s.From P → (∀ c ∈ cs, P c) → outputs s cs = cs.map Call.compiled := by
  induction cs with
  | nil => exact fun _ _ _ => rfl
  | cons c cs ih =>
    intro s hs hcs
    have hc : P c := hcs c mem_cons_self
    have hrest := ih (c.on s).2 (hs.on hc) fun d hmem => hcs d (mem_cons_of_mem c hmem)
    rw [outputs, map_cons, Call.outputOf_on hd hk hs hc, hrest]

theorem outputs_pair {text : Bytes} (h : c.keyText = d.keyText) (hne : text ≠ [])
    (hcomp : c.compiled = some text) : outputs {} [c, d] = [some text, some text] := by
  have hkey : c.key = d.key := by rw [Call.key_eq_hex, Call.key_eq_hex, h]
  have hok := eq_ok_of_toOption (c.toOption_compile_filename.trans hcomp)
  have hget : ({} : Store).get c.now c.key = (.ok none, {}) := rfl
  let s' := (({} : Store).put c.now (c.builder.gauge {}) c.key c.filename text).2
  have hfirst : c.on {} = (.ok { text }, s') := by rw [Call.on_miss (by simp [hget]), hok, hget]
  have hfound : (s'.get d.now d.key).1 = .ok (some text) := by
    rw [← hkey]
    exact Store.get_put rfl hne
  rw [outputs, outputs, outputs, hfirst, Call.on_hit hfound]
  rfl

theorem keysDecide_of_isSeparable (h : ∀ c, P c → c.isSeparable) : KeysDecide P := by
  intro c d hc hd hkey text _ hcomp
  have hcs := Bool.and_eq_true_iff.mp (h c hc)
  have hds := Bool.and_eq_true_iff.mp (h d hd)
  obtain ⟨ht, ha, hsource⟩ := (Store.keyText_eq_iff (by decide) (by simpa using hcs.1)
    (by simpa using hds.1) hcs.2 hds.2).mp hkey
  rw [← hcomp, Call.compiled, Call.compiled, hsource]
  exact (Options.toOption_compile_congr ht (fun _ => ha.mem_iff) d.source).symm

end

/-- **A shared store is transparent exactly when calls with one key text have one output, and it
is so when no target holds a zero byte and the assets are separable.** -/
theorem outputs_eq_compiled (P : Call → Prop) (hd : DigestsDiffer P) :
    (Transparent P ↔ KeysDecide P) ∧ ((∀ c, P c → c.isSeparable) → Transparent P) := by
  have hrun : KeysDecide P → Transparent P := fun hk s cs hs hcs =>
    outputs_of_from hd hk cs s (Store.from_of_rows_eq_nil hs) hcs
  refine ⟨⟨?_, hrun⟩, fun h => hrun (keysDecide_of_isSeparable h)⟩
  intro ht c d hPc hPd hkey text hne hcomp
  -- two calls with one key text, one after the other, already show the need
  have hpair := ht {} [c, d] rfl (by simp [hPc, hPd])
  rw [outputs_pair hkey hne hcomp] at hpair
  simpa using congrArg (·.getLast?) hpair.symm

/-- The call of a vote on a token, which is an operation on an asset if the token is one of the
names, and a call of another contract if not. -/
def vote (names : List Bytes) : Call where
  builder := { assets := names }
  source := "Token.vote(x);"

theorem keyText_vote {names : List Bytes} (h : names.Pairwise fun s t => Bytes.ble s t = true) :
    (vote names).keyText =
      Store.terminated [compilerVersion, [], Bytes.join "," names, "Token.vote(x);"] := by
  have hsort : Bytes.sort names = names := mergeSort_of_pairwise h
  rw [Call.keyText, Store.keyText, vote, hsort]

theorem keyText_vote_swap : (vote ["Token", "Coin"]).keyText = (vote ["Coin", "Token"]).keyText :=
  Store.keyText_eq_of_perm (.swap _ _ []) _ _ _

theorem hex_keyText_vote_ne :
    Sha256.hex (vote ["Coin", "Token"]).keyText ≠ Sha256.hex (vote []).keyText := by
  rw [keyText_vote (by decide), keyText_vote (by decide)]
  decide +kernel

/-- The names in another order share an entry, which holds their output; no names have their
own. -/
theorem outputs_vote_orders :
    let pool := [vote ["Coin", "Token"], vote ["Token", "Coin"], vote []]
    DigestsDiffer (· ∈ pool) ∧ (∀ c ∈ pool, c.isSeparable) ∧
      outputs {} (pool ++ pool) = (pool ++ pool).map Call.compiled := by
  intro pool
  have hd : DigestsDiffer (· ∈ pool) := by
    intro c d hc hd h
    simp only [pool, mem_cons, not_mem_nil, or_false] at hc hd
    rcases hc with rfl | rfl | rfl <;> rcases hd with rfl | rfl | rfl <;>
      simp_all [keyText_vote_swap, hex_keyText_vote_ne, hex_keyText_vote_ne.symm]
  have hsep : ∀ c ∈ pool, c.isSeparable := by decide
  refine ⟨hd, hsep, (outputs_eq_compiled (· ∈ pool) hd).2 hsep {} (pool ++ pool) rfl ?_⟩
  simp

/-- Two names and one name with a comma in it share an entry, but not the output. -/
theorem outputs_vote_comma :
    let calls := [vote ["Coin", "Token"], vote ["Coin,Token"]]
    let asset := Bytes.ofString "(nft-vote? Token x)"
    let contract := Bytes.ofString "(contract-call? .Token vote x)"
    outputs {} calls = [some asset, some asset] ∧
      calls.map Call.compiled = [some asset, some contract] ∧ asset ≠ contract := by
  intro calls asset contract
  have htwo : (vote ["Coin", "Token"]).compiled = some asset := by decide
  have hone : (vote ["Coin,Token"]).compiled = some contract := by decide
  have hkey : (vote ["Coin", "Token"]).keyText = (vote ["Coin,Token"]).keyText := by
    rw [keyText_vote (by decide), keyText_vote (by decide)]
    rfl
  refine ⟨outputs_pair hkey (by decide) htwo, ?_, by decide⟩
  rw [map_cons, map_cons, map_nil, htwo, hone]

end Covenant
