import Crabka.Gres.Substrate.Apply

/-!
# Cutting a batch into frames

A list of operations that is cut into frames gives what it gives in one batch as long as a later frame's conditional
puts read keys that no earlier frame has touched, and a counter or commit-log entry that it puts was only put before
(`Independent`). The proof runs `apply_frame` over the second part behind the first and afresh over the store that the
first part left, and keeps the two alike (`Alike`).
-/

namespace Crabka.Gres.Substrate
open List hiding getElem?_insert
open Std (ExtTreeMap)
open Found WriteOp Except Substrate Option WalFrame
variable {kv kv' : Kv} {f g : List WriteOp}

/-! ## Keys under a batch -/

variable {op : WriteOp} {k : Bytes}

lemma getElem?_apply_of_ne (h : op.key ≠ k) (kv : Kv) : (op.apply kv)[k]? = kv[k]? := by
  cases op with
  | put key value | conditionalPut key expected value => exact (getElem?_insert ..).trans (if_neg (Ne.symm h))
  | delete key => exact (getElem?_erase ..).trans (if_neg (Ne.symm h))

variable {ops : List WriteOp}

lemma getElem?_foldl_apply_of_ne (h : ∀ op ∈ ops, op.key ≠ k) (kv : Kv) : (ops.foldl apply kv)[k]? = kv[k]? := by
  refine foldlRecOn (motive := (·[k]? = kv[k]?)) ops apply rfl fun kv' h' op hop => ?_
  exact (getElem?_apply_of_ne (h op hop) kv').trans h'

/-! ## The loop of `apply_frame` -/

variable {acc acc' : Adjusting}

lemma adjustOp_eq_ok (h : adjustOp kv acc op = .ok acc') :
    acc'.adjusted = acc.adjusted ∨ ∃ op', acc'.adjusted = acc.adjusted ++ [op'] ∧ op'.key = op.key ∧
      (op.isPut → op'.isPut) ∧ (op.isPut = false → op' = op) := by
  unfold adjustOp at h
  split at h
  · cases h
    exact .inl rfl
  · cases op with
    | put key value =>
      dsimp only at h
      split at h
      · obtain ⟨incoming, -, h⟩ := bind_eq_ok.mp h
        obtain ⟨current, -, h⟩ := bind_eq_ok.mp h
        cases h
        exact .inr ⟨.put key (toBeBytes (max incoming current)), rfl, rfl, fun _ => rfl, nofun⟩
      · split at h
        · cases h
          unfold pushClogOp
          split
          · exact .inl rfl
          · exact .inr ⟨.put key value, rfl, rfl, fun _ => rfl, nofun⟩
        · cases h
          exact .inr ⟨.put key value, rfl, rfl, fun _ => rfl, nofun⟩
    | conditionalPut key expected value =>
      cases h
      exact .inr ⟨.conditionalPut key expected value, rfl, rfl, nofun, fun _ => rfl⟩
    | delete key =>
      cases h
      exact .inr ⟨.delete key, rfl, rfl, nofun, fun _ => rfl⟩

lemma mem_adjusted (h : ops.foldlM (adjustOp kv) acc = .ok acc') {op' : WriteOp} (hop : op' ∈ acc'.adjusted) :
    op' ∈ acc.adjusted ∨ ∃ op ∈ ops, op'.key = op.key ∧ (op.isPut → op'.isPut) ∧ (op.isPut = false → op' = op) := by
  refine foldlM_preserves (P := fun acc' => ∀ op' ∈ acc'.adjusted, op' ∈ acc.adjusted ∨ ∃ op ∈ ops,
    op'.key = op.key ∧ (op.isPut → op'.isPut) ∧ (op.isPut = false → op' = op))
    (fun op hin acc₁ acc₂ ih hstep op' hmem => ?_) (fun _ h => .inl h) h op' hop
  obtain heq | ⟨op₁, heq, hspec⟩ := adjustOp_eq_ok hstep
  · exact ih op' (heq ▸ hmem)
  · rw [heq] at hmem
    obtain hmem | rfl := mem_snoc.mp hmem
    · exact ih op' hmem
    · exact .inr ⟨op, hin, hspec⟩

variable {base : Kv}

lemma exists_fails_of_adjusted (h : ops.foldlM (adjustOp base) {} = .ok acc) (hany : acc.adjusted.any (fails kv)) :
    ∃ op ∈ ops, op.fails kv = true := by
  obtain ⟨op', hmem, hfails⟩ := any_eq_true.mp hany
  obtain hnil | ⟨op, hop, -, hput, hsame⟩ := mem_adjusted h hmem
  · cases hnil
  · cases hp : op.isPut with
    | true =>
      have := hput hp
      cases op' <;> simp [isPut, fails] at this hfails
    | false => exact ⟨op, hop, hsame hp ▸ hfails⟩

/-! ## What the accumulators say about the store -/

def OnlyPut (ops : List WriteOp) (k : Bytes) : Prop := ∀ op ∈ ops, op.key = k → op.isPut = true

/-- The accumulators after some operations say of a key what the store says once they are applied. -/
structure Tracks (kv : Kv) (acc : Adjusting) (k : Bytes) : Prop where
  counter : isCounterKey k = true →
    currentCounter kv acc k = currentCounter (acc.adjusted.foldl WriteOp.apply kv) {} k
  counter_lt : ∀ v, acc.counters[k]? = some v → v < 2 ^ 64
  clog : isCounterKey k = false → isClogKey k = true →
    alreadyTerminal kv acc k = alreadyTerminal (acc.adjusted.foldl WriteOp.apply kv) {} k

lemma currentCounter_fresh (kv : Kv) (k : Bytes) :
    currentCounter kv {} k = match kv[k]? with
      | some stored => counterValue k stored
      | none => .ok 0 := rfl

lemma alreadyTerminal_fresh (kv : Kv) (k : Bytes) : alreadyTerminal kv {} k = kv[k]?.any isTerminal := by
  simp [alreadyTerminal]

lemma currentCounter_lt {v : ℕ} (h : ∀ v, acc.counters[k]? = some v → v < 2 ^ 64)
    (hv : currentCounter kv acc k = .ok v) :
    v < 2 ^ 64 := by
  unfold currentCounter at hv
  split at hv
  · rename_i hsome
    obtain rfl := ok.inj hv
    exact h _ hsome
  · split at hv
    · exact counterValue_lt hv
    · obtain rfl := ok.inj hv
      decide

lemma Tracks.push_of_ne (h : Tracks kv acc k) (op : WriteOp) (hne : op.key ≠ k)
    (hadj : acc'.adjusted = acc.adjusted ++ [op]) (hc : acc'.counters[k]? = acc.counters[k]?)
    (hd : k ∈ acc'.decided ↔ k ∈ acc.decided) :
    Tracks kv acc' k := by
  have hstore : (acc'.adjusted.foldl apply kv)[k]? = (acc.adjusted.foldl apply kv)[k]? := by
    rw [hadj, foldl_append, foldl_cons, foldl_nil]
    exact getElem?_apply_of_ne hne _
  refine ⟨fun hk => ?_, fun v hv => h.counter_lt v (hc ▸ hv), fun hk hclog => ?_⟩
  · have hcur : currentCounter kv acc' k = currentCounter kv acc k := by
      simp only [currentCounter, hc]
    rw [hcur, h.counter hk, currentCounter_fresh, currentCounter_fresh, hstore]
  · have hterm : alreadyTerminal kv acc' k = alreadyTerminal kv acc k := by
      simp only [alreadyTerminal, hd]
    rw [hterm, h.clog hk hclog, alreadyTerminal_fresh, alreadyTerminal_fresh, hstore]

lemma Tracks.adjustOp (h : Tracks kv acc k) (hop : op.key = k → op.isPut) (hok : adjustOp kv acc op = .ok acc') :
    Tracks kv acc' k := by
  unfold Substrate.adjustOp at hok
  split at hok
  · obtain rfl := ok.inj hok
    exact h
  · cases op with
    | put key value =>
      dsimp only at hok
      split at hok
      · rename_i hcounter
        obtain ⟨incoming, hin, hok⟩ := bind_eq_ok.mp hok
        obtain ⟨current, hcur, hok⟩ := bind_eq_ok.mp hok
        obtain rfl := ok.inj hok
        obtain rfl | hk := eq_or_ne key k
        · have hlt : max incoming current < 2 ^ 64 :=
            max_lt (counterValue_lt hin) (currentCounter_lt h.counter_lt hcur)
          refine ⟨fun _ => ?_, fun v hv => ?_, fun hk => absurd (hcounter.symm.trans hk) nofun⟩
          · simp only [currentCounter, Adjusting.push, foldl_append, foldl_cons,
              foldl_nil, apply, ExtTreeMap.getElem?_insert_self]
            exact (counterValue_toBeBytes hlt _).symm
          · rw [ExtTreeMap.getElem?_insert_self] at hv
            exact some.inj hv ▸ hlt
        · exact h.push_of_ne (.put key _) hk rfl
            ((getElem?_insert ..).trans (if_neg (Ne.symm hk))) Iff.rfl
      · rename_i hcounter
        split at hok
        · obtain rfl := ok.inj hok
          unfold pushClogOp
          split
          · exact h
          · rename_i hopen
            obtain rfl | hk := eq_or_ne key k
            · refine ⟨fun hk => absurd hk hcounter, h.counter_lt, fun _ _ => ?_⟩
              unfold alreadyTerminal at hopen ⊢
              simp only [Adjusting.push, foldl_append, foldl_cons, foldl_nil,
                apply, ExtTreeMap.getElem?_insert_self, any_some]
              rw [Bool.not_eq_true, Bool.or_eq_false_iff] at hopen
              obtain ⟨hnot, hstored⟩ := hopen
              rw [hstored, Bool.or_false]
              cases isTerminal value <;> simp [hnot]
            · refine h.push_of_ne (.put key value) hk rfl rfl ?_
              split
              · simp [Ne.symm hk]
              · exact Iff.rfl
        · obtain rfl := ok.inj hok
          obtain rfl | hk := eq_or_ne key k
          · rename_i hclog
            exact ⟨fun hk => absurd hk hcounter, h.counter_lt, fun _ hk => absurd hk hclog⟩
          · exact h.push_of_ne (.put key value) hk rfl rfl Iff.rfl
    | conditionalPut key expected value | delete key =>
      obtain rfl := ok.inj hok
      exact h.push_of_ne _ (fun hk => absurd (hop hk) nofun) rfl rfl Iff.rfl

lemma tracks_foldlM (h : Tracks kv acc k) (hk : OnlyPut ops k)
    (hok : ops.foldlM (adjustOp kv) acc = .ok acc') : Tracks kv acc' k :=
  foldlM_preserves (P := (Tracks kv · k)) (fun op hop _ _ h hstep => h.adjustOp (hk op hop) hstep) h hok

lemma Tracks.start (kv : Kv) (k : Bytes) : Tracks kv {} k :=
  ⟨fun _ => rfl, fun v hv => by simp at hv, fun _ _ => rfl⟩

/-! ## Two runs of the loop -/

/-- The loop behind a first part of the batch and the loop over the store that it left agree on the keys still to be
put. -/
structure Alike (kv kv' : Kv) (first : List WriteOp) (K : Bytes → Prop) (acc acc' : Adjusting) : Prop where
  adjusted : acc.adjusted = first ++ acc'.adjusted
  counter : ∀ k, K k → isCounterKey k = true → currentCounter kv acc k = currentCounter kv' acc' k
  clog : ∀ k, K k → isCounterKey k = false → isClogKey k = true →
    alreadyTerminal kv acc k = alreadyTerminal kv' acc' k

/-- Results of the two loops: both fail, or both succeed and are alike. -/
def AlikeResults (kv kv' : Kv) (first : List WriteOp) (K : Bytes → Prop) :
    Except KvError Adjusting → Except KvError Adjusting → Prop
  | .ok acc, .ok acc' => Alike kv kv' first K acc acc'
  | .error e, .error e' => e = e'
  | _, _ => False

variable {first : List WriteOp} {K : Bytes → Prop}
section
variable (h : Alike kv kv' first K acc acc')
include h

lemma Alike.push (op : WriteOp) :
    Alike kv kv' first K (acc.push op) (acc'.push op) :=
  ⟨by simp [Adjusting.push, h.adjusted], h.counter, h.clog⟩

lemma Alike.adjustOp (hop : op.isPut → K op.key) :
    AlikeResults kv kv' first K (adjustOp kv acc op) (adjustOp kv' acc' op) := by
  unfold Substrate.adjustOp
  split
  · exact h
  · cases op with
    | put key value =>
      dsimp only
      have hK : K key := hop rfl
      split
      · rename_i hcounter
        unfold pushCounterOp
        rw [h.counter key hK hcounter]
        cases counterValue key value with
        | error e => rfl
        | ok incoming =>
          cases currentCounter kv' acc' key with
          | error e => rfl
          | ok current =>
            refine ⟨by simp [Adjusting.push, h.adjusted], fun k hk hc => ?_, h.clog⟩
            obtain rfl | hkey := eq_or_ne k key
            · simp [currentCounter]
            · have := h.counter k hk hc
              simp only [currentCounter, getElem?_insert, if_neg hkey] at this ⊢
              exact this
      · rename_i hcounter
        split
        · rename_i hclog
          unfold pushClogOp
          rw [h.clog key hK (by simpa using hcounter) hclog]
          split
          · exact h
          · refine ⟨by simp [Adjusting.push, h.adjusted], h.counter, fun k hk hc hclog => ?_⟩
            have := h.clog k hk hc hclog
            unfold alreadyTerminal at this ⊢
            by_cases hterm : isTerminal value
            · simp only [hterm, if_true, mem_cons]
              by_cases hkey : k = key
              · simp [hkey]
              · simpa [hkey] using this
            · simp only [hterm, if_false, Bool.false_eq_true]
              exact this
        · exact h.push _
    | conditionalPut key expected value | delete key => exact h.push _

lemma Alike.foldlM (ops : List WriteOp) (hops : ∀ op ∈ ops, op.isPut → K op.key) :
    AlikeResults kv kv' first K (ops.foldlM (Substrate.adjustOp kv) acc)
      (ops.foldlM (Substrate.adjustOp kv') acc') := by
  induction ops generalizing acc acc' with
  | nil => exact h
  | cons op ops ih =>
    have hstep := h.adjustOp (hops op mem_cons_self)
    rw [foldlM_cons, foldlM_cons]
    cases h1 : Substrate.adjustOp kv acc op with
    | error e =>
      rw [h1] at hstep
      cases h2 : Substrate.adjustOp kv' acc' op with
      | error e' => rwa [h2] at hstep
      | ok acc₂ =>
        rw [h2] at hstep
        exact hstep.elim
    | ok acc₁ =>
      rw [h1] at hstep
      cases h2 : Substrate.adjustOp kv' acc' op with
      | error e' =>
        rw [h2] at hstep
        exact hstep.elim
      | ok acc₂ =>
        rw [h2] at hstep
        exact ih hstep fun op' h' => hops op' (mem_cons_of_mem _ h')

end

/-! ## One cut -/

/-- A later part of a batch finds what the first part found: conditional puts read untouched keys, and
merged keys were only put. -/
structure Independent (f g : List WriteOp) : Prop where
  conditional : ∀ op ∈ g, op.isPut = false → ∀ expected value,
    op = .conditionalPut op.key expected value → ∀ op' ∈ f, op'.key ≠ op.key
  merged : ∀ op ∈ g, op.isPut = true → (isCounterKey op.key || isClogKey op.key) = true → OnlyPut f op.key

def Holds (kv : Kv) (ops : List WriteOp) : Prop := ∀ op ∈ ops, op.fails kv = false

lemma writeBatch_of_holds (h : ops.foldlM (adjustOp base) {} = .ok acc) (hholds : Holds kv ops) :
    writeBatch kv acc.adjusted = acc.adjusted.foldl apply kv := by
  refine if_neg fun hany => ?_
  obtain ⟨op, hop, hfails⟩ := exists_fails_of_adjusted h hany
  rw [hholds op hop] at hfails
  cases hfails

lemma holds_after (hok : f.foldlM (adjustOp kv) {} = .ok acc) (hi : Independent f g) (hholds : Holds kv g) :
    Holds (acc.adjusted.foldl apply kv) g := by
  intro op hop
  cases op with
  | put key value | delete key => rfl
  | conditionalPut key expected value =>
    have huntouched : ∀ op' ∈ acc.adjusted, op'.key ≠ key := by
      intro op' hmem heq
      obtain hnil | ⟨op₀, hop₀, hkey, -⟩ := mem_adjusted hok hmem
      · cases hnil
      · exact hi.conditional _ hop rfl expected value rfl op₀ hop₀ (hkey.symm.trans heq)
    have hold : decide (kv[key]? ≠ expected) = false := hholds _ hop
    show decide ((acc.adjusted.foldl apply kv)[key]? ≠ expected) = false
    rwa [getElem?_foldl_apply_of_ne huntouched]

/-- Cutting off the first part of a batch: the rest is applied to the store that the first part left. -/
lemma applyFrame_append (hok : f.foldlM (adjustOp kv) {} = .ok acc) (hi : Independent f g)
    (hholds : Holds kv (f ++ g)) :
    applyFrame kv (f ++ g) = applyFrame (acc.adjusted.foldl WriteOp.apply kv) g := by
  have hwhole : (f ++ g).foldlM (adjustOp kv) {} = g.foldlM (adjustOp kv) acc := by
    rw [foldlM_append, hok]
    rfl
  have hstart : Alike kv (acc.adjusted.foldl WriteOp.apply kv) acc.adjusted
      (fun k => ∃ op ∈ g, op.isPut ∧ op.key = k) acc {} := by
    refine ⟨(append_nil _).symm, ?_, ?_⟩
    · rintro k ⟨op, hop, hput, rfl⟩ hc
      exact (tracks_foldlM (.start kv op.key) (hi.merged op hop hput (by simp [hc])) hok).counter hc
    · rintro k ⟨op, hop, hput, rfl⟩ hc hclog
      exact (tracks_foldlM (.start kv op.key) (hi.merged op hop hput (by simp [hclog])) hok).clog hc hclog
  have hrest := hstart.foldlM g fun op hop hput => ⟨op, hop, hput, rfl⟩
  unfold applyFrame
  rw [hwhole]
  cases h1 : g.foldlM (adjustOp kv) acc with
  | error e =>
    rw [h1] at hrest
    cases h2 : g.foldlM (adjustOp (acc.adjusted.foldl WriteOp.apply kv)) {} with
    | error e' =>
      rw [h2] at hrest
      exact congrArg Except.error hrest
    | ok acc' =>
      rw [h2] at hrest
      exact hrest.elim
  | ok acc₁ =>
    rw [h1] at hrest
    cases h2 : g.foldlM (adjustOp (acc.adjusted.foldl WriteOp.apply kv)) {} with
    | error e' =>
      rw [h2] at hrest
      exact hrest.elim
    | ok acc' =>
      rw [h2] at hrest
      have hg := holds_after hok hi fun op hop => hholds op (mem_append_right _ hop)
      refine congrArg Except.ok ?_
      show writeBatch kv acc₁.adjusted = writeBatch _ acc'.adjusted
      rw [writeBatch_of_holds (hwhole.trans h1) hholds, writeBatch_of_holds h2 hg, hrest.adjusted, foldl_append]

/-! ## Errors -/

/-- Every horizon that is put has eight bytes, and it is merged with a horizon of eight bytes. -/
def HorizonOk (kv : Kv) (ops : List WriteOp) : Prop :=
  ∀ op ∈ ops, ∀ value, op = .put maxTsKey value →
    value.length = 8 ∧ ∀ stored, kv[maxTsKey]? = some stored → stored.length = 8

lemma counterValue_ok (key value : Bytes) (h : key = maxTsKey → value.length = 8) :
    ∃ v, counterValue key value = .ok v := by
  unfold counterValue
  split
  · rename_i hkey
    rw [if_pos (h hkey)]
    exact ⟨_, rfl⟩
  · exact ⟨_, rfl⟩

lemma adjustOp_ok (h : HorizonOk kv ops) (hop : op ∈ ops) (acc : Adjusting) :
    ∃ acc', adjustOp kv acc op = .ok acc' := by
  unfold adjustOp
  split
  · exact ⟨_, rfl⟩
  · cases op with
    | put key value =>
      dsimp only
      split
      · obtain ⟨incoming, hin⟩ := counterValue_ok key value
          fun hkey => (h _ hop value (by rw [hkey])).1
        have hcur : ∃ current, currentCounter kv acc key = .ok current := by
          unfold currentCounter
          split
          · exact ⟨_, rfl⟩
          · split
            · rename_i stored hstored
              refine counterValue_ok _ _ fun hkey => ?_
              exact (h _ hop value (by rw [hkey])).2 stored (hkey ▸ hstored)
            · exact ⟨_, rfl⟩
        obtain ⟨current, hcur⟩ := hcur
        unfold pushCounterOp
        rw [hin, hcur]
        exact ⟨_, rfl⟩
      · split <;> exact ⟨_, rfl⟩
    | conditionalPut key expected value | delete key => exact ⟨_, rfl⟩

lemma foldlM_adjustOp_ok (h : HorizonOk kv ops) (acc : Adjusting) :
    ∃ acc', ops.foldlM (adjustOp kv) acc = .ok acc' := by
  induction ops generalizing acc with
  | nil => exact ⟨acc, rfl⟩
  | cons op ops ih =>
    obtain ⟨acc₁, hstep⟩ := adjustOp_ok h mem_cons_self acc
    rw [foldlM_cons, hstep]
    exact ih (fun op' h' => h op' (mem_cons_of_mem _ h')) acc₁

/-! ## All cuts -/

variable {frames : List WalFrame}

/-- Independent frames on a store that accepts the whole list leave what the whole list leaves. -/
lemma applyFrames_eq (hholds : Holds kv (frames.map WalFrame.ops).flatten)
    (hpair : (frames.map WalFrame.ops).Pairwise Independent)
    (hok : applyFrame kv (frames.map WalFrame.ops).flatten = .ok kv') :
    applyFrames kv frames = (kv', true) := by
  induction frames generalizing kv with
  | nil =>
    cases hok
    rfl
  | cons frame frames ih =>
    rw [map_cons, flatten_cons] at hholds hok
    rw [map_cons, pairwise_cons] at hpair
    obtain ⟨hfirst, hpair⟩ := hpair
    have hi : Independent frame.ops (frames.map ops).flatten := by
      constructor
      · intro op hop hput expected value heq op' hop'
        obtain ⟨ops, hops, hop⟩ := mem_flatten.mp hop
        exact (hfirst ops hops).conditional op hop hput expected value heq op' hop'
      · intro op hop hput hmerged
        obtain ⟨ops, hops, hop⟩ := mem_flatten.mp hop
        exact (hfirst ops hops).merged op hop hput hmerged
    -- The loop over the whole list passes through the end of the first frame.
    obtain ⟨whole, hwhole, -⟩ : ∃ acc, (frame.ops ++ (frames.map ops).flatten).foldlM
        (adjustOp kv) {} = .ok acc ∧ writeBatch kv acc.adjusted = kv' := by
      unfold applyFrame at hok
      cases hfold : (frame.ops ++ (frames.map ops).flatten).foldlM (adjustOp kv) {} with
      | error e =>
        rw [hfold] at hok
        cases hok
      | ok acc =>
        rw [hfold] at hok
        exact ⟨acc, rfl, ok.inj hok⟩
    rw [foldlM_append] at hwhole
    obtain ⟨acc, hacc, -⟩ := bind_eq_ok.mp hwhole
    have hframe : applyFrame kv frame.ops = .ok (acc.adjusted.foldl apply kv) := by
      unfold applyFrame
      rw [hacc]
      exact congrArg ok (writeBatch_of_holds hacc fun op hop => hholds op (mem_append_left _ hop))
    have hrest : Holds kv (frames.map ops).flatten := fun op hop =>
      hholds op (mem_append_right _ hop)
    unfold applyFrames
    rw [hframe]
    refine ih (holds_after hacc hi hrest) hpair ?_
    rwa [← applyFrame_append hacc hi hholds]

variable {maxFrameBytes : ℕ}

lemma chunkOp_keeps {acc acc' : Chunking} (h : chunkOp maxFrameBytes acc op = some acc') :
    (acc'.frames.map WalFrame.ops).flatten ++ acc'.current =
      (acc.frames.map WalFrame.ops).flatten ++ acc.current ++ [op] := by
  have hflush : ∀ {a a' : Chunking}, a.flush = some a' → a'.current = [] ∧
      (a'.frames.map ops).flatten = (a.frames.map ops).flatten ++ a.current := by
    intro a a' ha
    unfold Chunking.flush at ha
    split at ha
    · cases ha
      exact ⟨rfl, by simp⟩
    · cases ha
  unfold chunkOp at h
  split at h
  · obtain ⟨acc₁, hfirst, hsecond⟩ := bind_eq_some_iff.mp h
    obtain ⟨hcur, hframes⟩ := hflush hsecond
    have hfirst : (acc₁.frames.map ops).flatten = (acc.frames.map ops).flatten ++ acc.current := by
      unfold Chunking.flushNonempty at hfirst
      split_ifs at hfirst with hnil
      · cases hfirst
        rw [hnil, append_nil]
      · exact (hflush hfirst).2
    rw [hcur, hframes, append_nil, hfirst]
  · split at h
    · obtain ⟨acc₁, hfirst, hsecond⟩ := bind_eq_some_iff.mp h
      cases hsecond
      rw [(hflush hfirst).2]
    · cases h
      exact (append_assoc ..).symm

lemma foldlM_chunkOp_keeps {acc acc' : Chunking} (h : ops.foldlM (chunkOp maxFrameBytes) acc = some acc') :
    (acc'.frames.map WalFrame.ops).flatten ++ acc'.current =
      (acc.frames.map WalFrame.ops).flatten ++ acc.current ++ ops := by
  induction ops generalizing acc with
  | nil =>
    cases h
    exact (append_nil _).symm
  | cons op ops ih =>
    obtain ⟨acc₁, hstep, hrest⟩ := bind_eq_some_iff.mp h
    rw [ih hrest, chunkOp_keeps hstep]
    simp

lemma flatten_chunkFrames {firstSeq : ℕ} (h : chunkFrames ops firstSeq maxFrameBytes = some frames) :
    (frames.map WalFrame.ops).flatten = ops := by
  unfold chunkFrames at h
  split at h
  · cases h
    simp
  · obtain ⟨acc, hfold, h⟩ := Option.bind_eq_some_iff.mp h
    cases h
    have := foldlM_chunkOp_keeps hfold
    simp only [map_nil, flatten_nil, nil_append] at this
    rw [← this]
    split_ifs with hnil
    · rw [hnil, append_nil]
    · simp

/-! ## Replay -/

lemma foldlM_withoutNotifyOps (kv : Kv) (ops : List WriteOp) (acc : Adjusting) :
    (withoutNotifyOps ops).foldlM (adjustOp kv) acc = ops.foldlM (adjustOp kv) acc := by
  induction ops generalizing acc with
  | nil => rfl
  | cons op ops ih =>
    rw [foldlM_cons]
    cases hn : op.isNotify with
    | true =>
      have hskip : withoutNotifyOps (op :: ops) = withoutNotifyOps ops := by
        simp [withoutNotifyOps, hn]
      have hadj : adjustOp kv acc op = .ok acc := if_pos hn
      rw [hskip, hadj, ih]
      rfl
    | false =>
      have hkeep : withoutNotifyOps (op :: ops) = op :: withoutNotifyOps ops := by
        simp [withoutNotifyOps, hn]
      rw [hkeep, foldlM_cons]
      exact congrArg _ (funext ih)

lemma applyFrame_withoutNotifyOps (kv : Kv) (ops : List WriteOp) :
    applyFrame kv (withoutNotifyOps ops) = applyFrame kv ops := by
  unfold applyFrame
  rw [foldlM_withoutNotifyOps]

lemma replayFrames_eq (kv : Kv) (frames : List WalFrame) : replayFrames kv frames = applyFrames kv frames := by
  induction frames generalizing kv with
  | nil => rfl
  | cons frame frames ih =>
    rw [replayFrames, List.map_cons]
    unfold applyFrames
    rw [applyFrame_withoutNotifyOps]
    cases applyFrame kv frame.ops with
    | ok kv' => exact ih kv'
    | error e => rfl

/-! ## All or nothing -/

lemma mem_adjusted_of_conditional (h : ops.foldlM (adjustOp kv) acc = .ok acc')
    (hfails : op.fails kv) (hn : op.isNotify = false) (hop : op ∈ acc.adjusted ∨ op ∈ ops) :
    op ∈ acc'.adjusted := by
  induction ops generalizing acc with
  | nil =>
    cases h
    exact hop.resolve_right (by simp)
  | cons op' ops ih =>
    obtain ⟨acc₁, hstep, hrest⟩ := bind_eq_ok.mp h
    refine ih hrest ?_
    obtain hop | hop := hop
    · left
      obtain heq | ⟨op₁, heq, -⟩ := adjustOp_eq_ok hstep
      · exact heq ▸ hop
      · exact heq ▸ mem_append_left _ hop
    · obtain rfl | hop := mem_cons.mp hop
      · left
        cases op with
        | put key value | delete key => cases hfails
        | conditionalPut key expected value =>
          unfold adjustOp at hstep
          rw [if_neg (by simp [hn])] at hstep
          cases hstep
          exact mem_append_right _ (mem_singleton_self _)
      · exact .inr hop

lemma storeAfter_of_fails (hop : op ∈ ops) (hn : op.isNotify = false)
    (hfails : op.fails kv) : storeAfter kv ops = kv := by
  unfold storeAfter applyFrame
  cases hfold : ops.foldlM (adjustOp kv) {} with
  | error e => rfl
  | ok acc =>
    have hmem := mem_adjusted_of_conditional hfold hfails hn (.inr hop)
    exact if_pos (any_eq_true.mpr ⟨op, hmem, hfails⟩)

/-- No cut is seen: there is none, or the store accepts the whole list and no frame depends on an earlier one. -/
def Cuttable (kv : Kv) (frames : List WalFrame) : Prop :=
  frames.length ≤ 1 ∨ (Holds kv (frames.map WalFrame.ops).flatten ∧
    HorizonOk kv (frames.map WalFrame.ops).flatten ∧ (frames.map WalFrame.ops).Pairwise Independent)

lemma fst_applyFrames_of_length_le_one (h : frames.length ≤ 1) (kv : Kv) :
    (applyFrames kv frames).1 = storeAfter kv (frames.map WalFrame.ops).flatten := by
  match frames, h with
  | [], _ => rfl
  | [frame], _ =>
    simp only [applyFrames, map_cons, map_nil, flatten_cons, flatten_nil, append_nil, storeAfter]
    cases applyFrame kv frame.ops <;> rfl

/-- A commit that is cut into frames leaves, live and in replay, what its list leaves as one batch, and
nothing of a list with a conditional put that does not hold, whenever the cut is not seen. -/
theorem commit_all_or_nothing {ops : List WriteOp} {firstSeq maxFrameBytes : ℕ}
    {frames : List WalFrame} (hchunk : chunkFrames ops firstSeq maxFrameBytes = some frames) {kv : Kv}
    (hcut : Cuttable kv frames) :
    (applyFrames kv frames).1 = storeAfter kv ops ∧ (replayFrames kv frames).1 = storeAfter kv ops ∧
      ((∃ op ∈ ops, op.isNotify = false ∧ op.fails kv = true) → (applyFrames kv frames).1 = kv) := by
  have hlive : (applyFrames kv frames).1 = storeAfter kv ops := by
    rw [← flatten_chunkFrames hchunk]
    obtain hone | ⟨hholds, hhorizon, hpair⟩ := hcut
    · exact fst_applyFrames_of_length_le_one hone kv
    · obtain ⟨acc, hacc⟩ := foldlM_adjustOp_ok hhorizon {}
      have hok : applyFrame kv (frames.map WalFrame.ops).flatten = .ok (writeBatch kv acc.adjusted) := by
        unfold applyFrame
        rw [hacc]
        rfl
      rw [applyFrames_eq hholds hpair hok, storeAfter, hok]
      rfl
  refine ⟨hlive, by rw [replayFrames_eq, hlive], ?_⟩
  rintro ⟨op, hop, hn, hfails⟩
  rw [hlive, storeAfter_of_fails hop hn hfails]

def putThenCas : List WriteOp := [.put [97] [1], .conditionalPut [98] (some [2]) [3]]

lemma chunkFrames_putThenCas :
    chunkFrames putThenCas 0 24 = some [⟨0, [.put [97] [1]]⟩, ⟨1, [.conditionalPut [98] (some [2]) [3]]⟩] :=
  by decide +kernel

theorem commit_all_or_nothing_putThenCas :
    (applyFrames (({} : Kv).insert [98] [2])
        [⟨0, [.put [97] [1]]⟩, ⟨1, [.conditionalPut [98] (some [2]) [3]]⟩]).1 =
      storeAfter (({} : Kv).insert [98] [2]) putThenCas := by
  refine (commit_all_or_nothing chunkFrames_putThenCas (.inr ⟨?_, ?_, ?_⟩)).1
  · unfold Holds
    decide +kernel
  · rintro op hop value rfl
    simp [maxTsKey] at hop
  · refine pairwise_pair.mpr ⟨?_, ?_⟩
    · intro op hop _ expected value _ op' hop'
      obtain rfl := mem_singleton.mp hop
      obtain rfl := mem_singleton.mp hop'
      decide
    · intro op hop hput
      obtain rfl := mem_singleton.mp hop
      cases hput

/-- The frame with the put is applied although the condition of the list does not hold. -/
theorem cut_applies_rejected_batch :
    chunkFrames putThenCas 0 24 = some [⟨0, [.put [97] [1]]⟩, ⟨1, [.conditionalPut [98] (some [2]) [3]]⟩] ∧
      (applyFrames ∅ [⟨0, [.put [97] [1]]⟩, ⟨1, [.conditionalPut [98] (some [2]) [3]]⟩]).1 =
        (∅ : Kv).insert [97] [1] ∧
      storeAfter ∅ putThenCas = ∅ := by
  decide +kernel

end Crabka.Gres.Substrate
