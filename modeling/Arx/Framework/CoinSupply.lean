import Arx.Framework.CoinLedger
import Arx.Movelib.Run
import Arx.Movelib.Totals

/-!
# The supply of a coin is what exists of it

`Balanced c n` says that the tracked supply is what exists of the coin, and `n` more in hand. Each
call begins and ends with empty hands.
-/

namespace Arx
open Movelib Function List Option

inductive CoinPlace
  | store (a : Address)
  | held (id : ℕ)
  | aggregatable (id : ℕ)
  deriving DecidableEq

namespace CoinState

def coinAt (c : CoinState) : CoinPlace → Option ℕ
  | .store a => (c.stores a).map CoinStore.coin
  | .held id => c.held id
  | .aggregatable id => (c.aggregatable id).map Aggregator.value

def Worth (c : CoinState) (n : ℕ) : Prop := HasTotal (fun p => (c.coinAt p).getD 0) n

variable {c c' : CoinState} {a : Address} {id n m v : ℕ} {coinAddress account : Address}

@[simp] theorem coinAt_putStore (store : Option CoinStore) :
    (c.putStore a store).coinAt = update c.coinAt (.store a) (store.map CoinStore.coin) := by
  funext p
  cases p with
  | store b => by_cases hb : b = a <;> simp [coinAt,putStore,hb]
  | held => rfl
  | aggregatable => rfl

@[simp] theorem coinAt_putHeld (coin : Option ℕ) :
    (c.putHeld id coin).coinAt = update c.coinAt (.held id) coin := by
  funext p
  cases p with
  | store => rfl
  | held j => by_cases hj : j = id <;> simp [coinAt,putHeld,hj]
  | aggregatable => rfl

@[simp] theorem coinAt_putAggregatable (g : Option Aggregator) :
    (c.putAggregatable id g).coinAt =
      update c.coinAt (.aggregatable id) (g.map Aggregator.value) := by
  funext p
  cases p with
  | store => rfl
  | held => rfl
  | aggregatable j => by_cases hj : j = id <;> simp [coinAt,putAggregatable,hj]

theorem Worth.update (h : c.Worth n) (p : CoinPlace) (x : Option ℕ)
    (hc : c'.coinAt = update c.coinAt p x)
    (hm : m + (c.coinAt p).getD 0 = n + x.getD 0) : c'.Worth m := by
  refine HasTotal.move h p (fun q hq => ?_) ?_
  · rw [hc,update_of_ne hq]
  · rw [hc,update_self]
    exact hm

/-- What the tracked supply has to be: nothing is minted before the coin type is initialised. -/
inductive Tracks : Option CoinInfo → ℕ → Prop
  | unpublished : Tracks none 0
  | published {info : CoinInfo} {g : OptionalAggregator} {n : ℕ} (hsupply : info.supply = some g)
      (hg : g.Counts n) : Tracks (some info) n

def Tracked (c : CoinState) : Prop := ∀ info, c.info = some info → info.supply.isSome = true

def Balanced (c : CoinState) (n : ℕ) : Prop :=
  c.Tracked → ∃ total, c.Worth total ∧ Tracks c.info (total + n)

/-- What a function of the module does: the value in hand goes from `n` to `m`, the coins in the
places `ps` may change, and coins may appear in those of the places `qs` that were free. -/
structure Moves (n m : ℕ) (ps qs : List CoinPlace) (c c' : CoinState) : Prop where
  balanced : c.Balanced n → c'.Balanced m
  frame : ∀ p, p ∉ ps → c'.coinAt p = c.coinAt p ∨ c.coinAt p = none ∧ p ∈ qs

variable {c'' : CoinState} {k : ℕ} {ps ps' qs qs' : List CoinPlace}

theorem Moves.refl (n : ℕ) (ps qs : List CoinPlace) (c : CoinState) : Moves n n ps qs c c :=
  ⟨id,fun _ _ => .inl rfl⟩

theorem Moves.trans (h : Moves n m ps qs c c') (h' : Moves m k ps' qs' c' c'') :
    Moves n k (ps ++ ps') (qs ++ qs') c c'' := by
  refine ⟨fun hc => h'.balanced (h.balanced hc),fun p hp => ?_⟩
  rw [mem_append,not_or] at hp
  cases h.frame p hp.1 with
  | inr hnew => exact .inr ⟨hnew.1,mem_append_left _ hnew.2⟩
  | inl hsame =>
    cases h'.frame p hp.2 with
    | inl hsame' => exact .inl (hsame'.trans hsame)
    | inr hnew => exact .inr ⟨hsame ▸ hnew.1,mem_append_right _ hnew.2⟩

theorem Moves.mono (h : Moves n m ps qs c c') (hps : ps ⊆ ps') (hqs : qs ⊆ ps' ++ qs') :
    Moves n m ps' qs' c c' := by
  refine ⟨h.balanced,fun p hp => ?_⟩
  cases h.frame p fun hmem => hp (hps hmem) with
  | inl hsame => exact .inl hsame
  | inr hnew => exact .inr ⟨hnew.1,(mem_append.mp (hqs hnew.2)).resolve_left hp⟩

theorem Moves.fresh {p : CoinPlace} (h : Moves n m [p] qs c c') (hfree : c.coinAt p = none) :
    Moves n m [] (p :: qs) c c' := by
  refine ⟨h.balanced,fun q _ => ?_⟩
  by_cases hq : q = p
  · exact .inr ⟨hq ▸ hfree,hq ▸ mem_cons_self⟩
  · cases h.frame q (by simpa using hq) with
    | inl hsame => exact .inl hsame
    | inr hnew => exact .inr ⟨hnew.1,mem_cons_of_mem _ hnew.2⟩

theorem Moves.place {p : CoinPlace} {x : Option ℕ} (hinfo : c'.info = c.info)
    (hc : c'.coinAt = update c.coinAt p x)
    (hm : m + x.getD 0 = n + (c.coinAt p).getD 0) : Moves n m [p] [] c c' := by
  refine ⟨fun hbal htracked => ?_,fun q hq => .inl ?_⟩
  · obtain ⟨total,hworth,htracks⟩ := hbal fun info hi => htracked info (hinfo.trans hi)
    have hle := HasTotal.le hworth p
    have hworth' : c'.Worth (total + x.getD 0 - (c.coinAt p).getD 0) :=
      hworth.update p x hc (by omega)
    refine ⟨_,hworth',?_⟩
    convert htracks using 1
    omega
  · rw [hc,update_of_ne (ne_of_not_mem_cons hq)]

theorem Moves.onSupply {f : OptionalAggregator → Result OptionalAggregator}
    (hf : ∀ g g' k, g.Counts (k + n) → f g = .ok g' → g'.Counts (k + m))
    (h : c.onSupply f = .ok c') : Moves n m [] [] c c' := by
  simp only [CoinState.onSupply,bind_eq_ok,borrowGlobal_eq_ok] at h
  obtain ⟨info,hi,h⟩ := h
  cases hsupply : info.supply with
  | none =>
    -- An untracked supply is left alone.
    rw [hsupply] at h
    cases h
    refine ⟨fun _ htracked => ?_,fun _ _ => .inl rfl⟩
    have hsome := htracked info hi
    rw [hsupply] at hsome
    cases hsome
  | some g =>
    simp only [hsupply,bind_eq_ok,pure_eq_ok] at h
    obtain ⟨g',hg',rfl⟩ := h
    refine ⟨fun hbal _ => ?_,fun _ _ => .inl rfl⟩
    have htracked : c.Tracked := by
      intro info' hi'
      cases hi.symm.trans hi'
      rw [hsupply]
      rfl
    obtain ⟨total,hworth,htracks⟩ := hbal htracked
    rw [hi] at htracks
    obtain ⟨hs,hg⟩ : ∃ hs : info.supply = some g, g.Counts (total + n) := by
      cases htracks with
      | published hs hg =>
        cases hsupply.symm.trans hs
        exact ⟨hs,hg⟩
    exact ⟨total,hworth,.published rfl (hf g g' total hg hg')⟩

theorem take_moves (h : c.take id = .ok (c',v)) : Moves n (n + v) [.held id] [] c c' := by
  simp only [take,bind_eq_ok,borrowGlobal_eq_ok,pure_eq_ok,Prod.mk.injEq] at h
  obtain ⟨_,hv,rfl,rfl⟩ := h
  exact .place rfl (coinAt_putHeld _) (by simp [coinAt,hv])

theorem keep_moves (h : c.keep id v = .ok c') : Moves (n + v) n [] [.held id] c c' := by
  simp only [keep,bind_eq_ok,ensure_eq_ok,pure_eq_ok] at h
  obtain ⟨_,hfree,rfl⟩ := h
  exact Moves.fresh (.place rfl (coinAt_putHeld _) (by simp [coinAt,hfree])) hfree

theorem mint_moves (h : c.mint m = .ok (c',v)) : Moves n (n + v) [] [] c c' := by
  rw [mint] at h
  split at h
  · cases h
    exact .refl _ _ _ _
  · simp only [bind_eq_ok,pure_eq_ok,Prod.mk.injEq] at h
    obtain ⟨_,h,rfl,rfl⟩ := h
    refine .onSupply (fun g g' k hg hadd => ?_) h
    rw [← add_assoc]
    exact hg.add hadd

theorem burn_moves (h : c.burn v = .ok c') : Moves (n + v) n [] [] c c' := by
  obtain ⟨_,-,h⟩ := bind_eq_ok.mp h
  refine .onSupply (fun g g' k hg hsub => ?_) h
  have hcounts := (hg.sub hsub).2
  rwa [← add_assoc,Nat.add_sub_cancel] at hcounts

theorem putStore_moves {store : CoinStore} (hstore : c.stores a = some store) (hle : m ≤ store.coin) :
    Moves n (n + m) [.store a] [] c
      (c.putStore a (some { store with coin := store.coin - m })) := by
  refine .place rfl (coinAt_putStore _) ?_
  simp only [coinAt,hstore,map_some,getD_some]
  omega

theorem burnFrom_moves (h : c.burnFrom a m = .ok c') : Moves n n [.store a] [] c c' := by
  rw [burnFrom] at h
  split at h
  · cases h
    exact .refl _ _ _ _
  · simp only [bind_eq_ok,borrowGlobal_eq_ok,Coin.extract_eq_ok] at h
    obtain ⟨store,hstore,_,⟨hle,rfl⟩,h⟩ := h
    exact (putStore_moves hstore hle).trans (burn_moves h)

theorem deposit_moves (h : c.deposit a v = .ok c') : Moves (n + v) n [.store a] [] c c' := by
  simp only [deposit,bind_eq_ok,Coin.deposit_eq_ok,pure_eq_ok] at h
  obtain ⟨_,⟨store,hstore,-,-,rfl⟩,rfl⟩ := h
  refine .place rfl (coinAt_putStore _) ?_
  simp only [coinAt,hstore,map_some,getD_some]
  omega

theorem withdraw_moves (h : c.withdraw a m = .ok (c',v)) :
    Moves n (n + v) [.store a] [] c c' := by
  simp only [withdraw,bind_eq_ok,Coin.withdraw_eq_ok,pure_eq_ok] at h
  obtain ⟨_,⟨store,hstore,-,hle,rfl⟩,h⟩ := h
  cases h
  exact putStore_moves hstore hle

theorem setFrozen_moves {frozen : Bool} (h : c.setFrozen a frozen = .ok c') :
    Moves n n [.store a] [] c c' := by
  simp only [setFrozen,bind_eq_ok,borrowGlobal_eq_ok,pure_eq_ok] at h
  obtain ⟨store,hstore,rfl⟩ := h
  exact .place rfl (coinAt_putStore _) (by simp [coinAt,hstore])

theorem register_moves : Moves n n [] [.store a] c (c.register a) := by
  rw [register]
  split
  · exact .refl _ _ _ _
  · rename_i hstore
    have hfree : c.coinAt (.store a) = none := by simp [coinAt,hstore]
    exact Moves.fresh (.place rfl (coinAt_putStore _) (by simp [hfree])) hfree

theorem upgradeSupply_moves {allow : Bool}
    (h : c.upgradeSupply coinAddress account allow = .ok c') : Moves n n [] [] c c' := by
  simp only [upgradeSupply,bind_eq_ok] at h
  obtain ⟨_,-,_,-,h⟩ := h
  refine .onSupply (fun g g' k hg hf => ?_) h
  split at hf
  · cases hf
    exact hg
  · exact hg.switch hf

theorem initializeInternal_moves {name symbol : Bytes} {decimals : ℕ}
    {monitor parallelizable : Bool}
    (h : c.initializeInternal coinAddress account name symbol decimals monitor parallelizable =
      .ok c') : Moves 0 0 [] [] c c' := by
  simp only [initializeInternal,bind_eq_ok,ensure_eq_ok,pure_eq_ok,isNone_iff_eq_none] at h
  obtain ⟨_,-,_,hi,_,-,_,-,rfl⟩ := h
  refine ⟨fun hbal htracked => ?_,fun _ _ => .inl rfl⟩
  obtain ⟨total,hworth,htracks⟩ := hbal fun info hinfo => by rw [hi] at hinfo; cases hinfo
  rw [hi] at htracks
  have htotal : total = 0 := by
    generalize hn : total + 0 = n at htracks
    cases htracks
    exact hn
  subst htotal
  cases monitor with
  | false => cases htracked _ rfl
  | true => exact ⟨0,hworth,.published rfl (OptionalAggregator.counts_new _ _)⟩

theorem initializeAggregatableCoin_moves {account : Address}
    (h : c.initializeAggregatableCoin account id = .ok c') :
    Moves n n [] [.aggregatable id] c c' := by
  simp only [initializeAggregatableCoin,bind_eq_ok,ensure_eq_ok,pure_eq_ok] at h
  obtain ⟨_,-,_,hid,rfl⟩ := h
  have hfree : c.coinAt (.aggregatable id) = none := by simp [coinAt,hid]
  exact Moves.fresh (.place rfl (coinAt_putAggregatable _)
    (by simp [hfree,AggregatableCoin.init,Aggregator.create])) hfree

theorem drainAggregatableCoin_moves (h : c.drainAggregatableCoin id = .ok (c',v)) :
    Moves n (n + v) [.aggregatable id] [] c c' := by
  simp only [drainAggregatableCoin,AggregatableCoin.drain,bind_eq_ok,borrowGlobal_eq_ok,
    Aggregator.sub_eq_ok,pure_eq_ok] at h
  obtain ⟨g,hg,_,⟨_,-,_,⟨-,rfl⟩,rfl⟩,h⟩ := h
  cases h
  exact .place rfl (coinAt_putAggregatable _) (by simp [coinAt,hg])

theorem mergeAggregatableCoin_moves (h : c.mergeAggregatableCoin id v = .ok c') :
    Moves (n + v) n [.aggregatable id] [] c c' := by
  simp only [mergeAggregatableCoin,AggregatableCoin.merge,bind_eq_ok,borrowGlobal_eq_ok,
    Aggregator.add_eq_ok,pure_eq_ok] at h
  obtain ⟨g,hg,_,⟨-,rfl⟩,rfl⟩ := h
  refine .place rfl (coinAt_putAggregatable _) ?_
  simp only [coinAt,hg,map_some,getD_some]
  omega

theorem collectIntoAggregatableCoin_moves (h : c.collectIntoAggregatableCoin a m id = .ok c') :
    Moves n n [.store a,.aggregatable id] [] c c' := by
  simp only [collectIntoAggregatableCoin,bind_eq_ok,borrowGlobal_eq_ok,pure_eq_ok] at h
  obtain ⟨g,hg,_,hcollect,rfl⟩ := h
  rw [AggregatableCoin.collectInto] at hcollect
  split at hcollect
  · cases hcollect
    have hstore : Moves n n [.store a] [] c (c.putStore a (c.stores a)) :=
      .place rfl (coinAt_putStore _) rfl
    have hagg : Moves n n [.aggregatable id] [] (c.putStore a (c.stores a))
        ((c.putStore a (c.stores a)).putAggregatable id (some g)) :=
      .place rfl (coinAt_putAggregatable _) (by simp [coinAt,putStore,hg])
    exact hstore.trans hagg
  · simp only [AggregatableCoin.merge,bind_eq_ok,borrowGlobal_eq_ok,Coin.extract_eq_ok,
      Aggregator.add_eq_ok,pure_eq_ok] at hcollect
    obtain ⟨store,hstore,_,⟨hle,rfl⟩,_,⟨-,rfl⟩,rfl⟩ := hcollect
    refine (putStore_moves hstore hle).trans (.place rfl (coinAt_putAggregatable _) ?_)
    simp only [coinAt,putStore,hg,map_some,getD_some]
    omega

end CoinState

def CoinOp.arguments : CoinOp → List CoinPlace
  | .freezeCoinStore a | .unfreezeCoinStore a | .burnFrom a _ | .withdraw a _ _ => [.store a]
  | .burn coin | .destroyZero coin | .extract coin _ _ | .extractAll coin _ => [.held coin]
  | .deposit a coin => [.store a,.held coin]
  | .transfer source dst _ => [.store source,.store dst]
  | .merge dst source => [.held dst,.held source]
  | .mergeAggregatableCoin dst coin => [.aggregatable dst,.held coin]
  | .drainAggregatableCoin coin _ => [.aggregatable coin]
  | .collectIntoAggregatableCoin a _ dst => [.store a,.aggregatable dst]
  | _ => []

def CoinOp.created : CoinOp → List CoinPlace
  | .register a => [.store a]
  | .zero new | .mint _ new | .withdraw _ _ new | .extract _ _ new | .extractAll _ new
  | .drainAggregatableCoin _ new => [.held new]
  | .initializeAggregatableCoin _ new => [.aggregatable new]
  | _ => []

namespace CoinState

variable {c c' : CoinState} {coinAddress : Address} {allow : Bool} {o : CoinOp}

theorem split_moves {c₁ c₂ : CoinState} {coin new v rest taken : ℕ}
    (htake : c.take coin = .ok (c₁,v)) (hsplit : v = rest + taken)
    (hrest : c₁.keep coin rest = .ok c₂) (htaken : c₂.keep new taken = .ok c') :
    Moves 0 0 [.held coin] [.held new] c c' := by
  have h₁ : Moves 0 (0 + taken + rest) [.held coin] [] c c₁ := by
    have h := take_moves (n := 0) htake
    rwa [hsplit,add_comm rest,← add_assoc] at h
  exact ((h₁.trans (keep_moves hrest)).trans (keep_moves htaken)).mono (by simp) (by simp)

theorem step_moves (h : c.step coinAddress allow o = .ok c') :
    Moves 0 0 o.arguments o.created c c' := by
  cases o with
  | initializeCoin => exact initializeInternal_moves h
  | initializeWithParallelizableSupply =>
    obtain ⟨_,-,h⟩ := bind_eq_ok.mp h
    exact initializeInternal_moves h
  | register a =>
    cases h
    exact register_moves
  | freezeCoinStore | unfreezeCoinStore => exact setFrozen_moves h
  | zero => exact keep_moves h
  | mint amount new =>
    obtain ⟨⟨c₁,v⟩,hmint,hkeep⟩ := bind_eq_ok.mp h
    exact (mint_moves hmint).trans (keep_moves hkeep)
  | burn coin =>
    obtain ⟨⟨c₁,v⟩,htake,hburn⟩ := bind_eq_ok.mp h
    exact (take_moves htake).trans (burn_moves hburn)
  | burnFrom => exact burnFrom_moves h
  | deposit a coin =>
    obtain ⟨⟨c₁,v⟩,htake,hdeposit⟩ := bind_eq_ok.mp h
    exact ((take_moves htake).trans (deposit_moves hdeposit)).mono (by simp [CoinOp.arguments])
      (by simp)
  | withdraw a amount new =>
    obtain ⟨⟨c₁,v⟩,hwithdraw,hkeep⟩ := bind_eq_ok.mp h
    exact (withdraw_moves hwithdraw).trans (keep_moves hkeep)
  | transfer source dst amount =>
    obtain ⟨⟨c₁,v⟩,hwithdraw,hdeposit⟩ := bind_eq_ok.mp h
    exact (withdraw_moves hwithdraw).trans (deposit_moves hdeposit)
  | extract coin amount new =>
    simp only [step,bind_eq_ok,Coin.extract_eq_ok] at h
    obtain ⟨⟨c₁,v⟩,htake,_,⟨hle,rfl⟩,c₂,hrest,htaken⟩ := h
    exact split_moves htake (Nat.sub_add_cancel hle).symm hrest htaken
  | extractAll coin new =>
    simp only [step,bind_eq_ok,Coin.extractAll] at h
    obtain ⟨⟨c₁,v⟩,htake,c₂,hrest,htaken⟩ := h
    exact split_moves htake (zero_add v).symm hrest htaken
  | merge dst source =>
    simp only [step,bind_eq_ok,Coin.merge_eq_ok] at h
    obtain ⟨⟨c₁,v⟩,hsource,⟨c₂,w⟩,hdst,_,⟨-,rfl⟩,hkeep⟩ := h
    have hmerged : Moves (0 + v + w) 0 [] [.held dst] c₂ c' := by
      have hkept := keep_moves (n := 0) hkeep
      rwa [add_comm w,← add_assoc] at hkept
    exact (((take_moves hsource).trans (take_moves hdst)).trans hmerged).mono
      (by simp [CoinOp.arguments]) (by simp [CoinOp.arguments])
  | destroyZero coin =>
    simp only [step,bind_eq_ok,Coin.destroyZero_eq_ok,pure_eq_ok] at h
    obtain ⟨⟨c₁,v⟩,htake,_,rfl,rfl⟩ := h
    exact take_moves htake
  | upgradeSupply => exact upgradeSupply_moves h
  | initializeAggregatableCoin => exact initializeAggregatableCoin_moves h
  | mergeAggregatableCoin dst coin =>
    obtain ⟨⟨c₁,v⟩,htake,hmerge⟩ := bind_eq_ok.mp h
    exact ((take_moves htake).trans (mergeAggregatableCoin_moves hmerge)).mono
      (by simp [CoinOp.arguments]) (by simp [CoinOp.arguments])
  | drainAggregatableCoin coin new =>
    obtain ⟨⟨c₁,v⟩,hdrain,hkeep⟩ := bind_eq_ok.mp h
    exact (drainAggregatableCoin_moves hdrain).trans (keep_moves hkeep)
  | collectIntoAggregatableCoin => exact collectIntoAggregatableCoin_moves h

theorem empty_balanced : empty.Balanced 0 := by
  intro _
  refine ⟨0,?_,.unpublished⟩
  show HasTotal (fun p => (empty.coinAt p).getD 0) 0
  have hzero : (fun p => (empty.coinAt p).getD 0) = fun _ => 0 := by
    funext p
    cases p <;> rfl
  rw [hzero]
  exact .zero

theorem Balanced.supply_eq {info : CoinInfo} (h : c.Balanced 0) (hi : c.info = some info)
    (hsupply : info.supply.isSome = true) :
    ∃ total, c.supply = .ok (some total) ∧ c.Worth total := by
  have htracked : c.Tracked := by
    intro info' hi'
    cases hi.symm.trans hi'
    exact hsupply
  obtain ⟨total,hworth,htracks⟩ := h htracked
  rw [hi] at htracks
  cases htracks with
  | published hs hg =>
    refine ⟨total,?_,hworth⟩
    rw [CoinState.supply,hi]
    simp only [borrowGlobal,ok_bind,hs,hg.read_eq]
    rfl

end CoinState

def CoinModuleOp.Names (o : CoinModuleOp) (type : CoinType) (p : CoinPlace) : Prop :=
  ∃ call, o = .coin type call ∧ p ∈ call.arguments

def CoinModuleOp.Creates (o : CoinModuleOp) (type : CoinType) (p : CoinPlace) : Prop :=
  ∃ call, o = .coin type call ∧ p ∈ call.created

namespace CoinModule

variable {coinAddress : CoinType → Address} {s t : CoinModule} {o : CoinModuleOp}

theorem step_balanced (h : s.step coinAddress o = .ok t) (hs : ∀ type, (s.coins type).Balanced 0) :
    ∀ type, (t.coins type).Balanced 0 := by
  intro type
  cases o with
  | allowSupplyUpgrades account allowed =>
    obtain ⟨_,-,⟨⟩⟩ := bind_eq_ok.mp h
    exact hs type
  | coin type' call =>
    obtain ⟨c,hc,⟨⟩⟩ := bind_eq_ok.mp h
    by_cases htype : type = type'
    · subst htype
      simpa using (CoinState.step_moves hc).balanced (hs type)
    · simpa [update_of_ne htype] using hs type

theorem step_frame {type : CoinType} {p : CoinPlace} (h : s.step coinAddress o = .ok t)
    (hp : ¬ o.Names type p) : (t.coins type).coinAt p = (s.coins type).coinAt p ∨
      (s.coins type).coinAt p = none ∧ o.Creates type p := by
  cases o with
  | allowSupplyUpgrades account allowed =>
    obtain ⟨_,-,⟨⟩⟩ := bind_eq_ok.mp h
    exact .inl rfl
  | coin type' call =>
    obtain ⟨c,hc,⟨⟩⟩ := bind_eq_ok.mp h
    by_cases htype : type = type'
    · subst htype
      have hplaces : p ∉ call.arguments := fun hmem => hp ⟨call,rfl,hmem⟩
      simp only [update_self]
      exact ((CoinState.step_moves hc).frame p hplaces).imp id
        fun hnew => ⟨hnew.1,call,rfl,hnew.2⟩
    · exact .inl (by simp only [update_of_ne htype])

/-- The supply of every coin type that tracks it is the value of all its coins, in every state that
the module reaches. A call changes no coin that it does not name, and a coin it creates is one that
did not exist. -/
theorem supply_conserved (h : Reachable (step coinAddress) genesis s) :
    (∀ type info, (s.coins type).info = some info → info.supply.isSome = true →
      ∃ total, (s.coins type).supply = .ok (some total) ∧ (s.coins type).Worth total) ∧
    ∀ o t, s.step coinAddress o = .ok t → ∀ type p, ¬ o.Names type p →
      (t.coins type).coinAt p = (s.coins type).coinAt p ∨
        (s.coins type).coinAt p = none ∧ o.Creates type p := by
  have hbalanced : ∀ type, (s.coins type).Balanced 0 :=
    h.invariant (I := fun s => ∀ type, (s.coins type).Balanced 0)
      (fun _ => CoinState.empty_balanced) fun _ _ _ hs hstep => step_balanced hstep hs
  refine ⟨fun type info hi hsupply => (hbalanced type).supply_eq hi hsupply,?_⟩
  intro o t hstep type p hp
  exact step_frame hstep hp

def upgradeRun : List CoinOp :=
  [.initializeCoin 7 [77] [77] 8 true,.mint 100 0,.upgradeSupply 7,.register 3,.extract 0 30 1,
    .deposit 3 1,.initializeAggregatableCoin 1 0,.collectIntoAggregatableCoin 3 10 0,
    .drainAggregatableCoin 0 2,.merge 0 2,.extract 0 40 1,.burn 1]

theorem supply_conserved_upgrade : ∃ s : CoinModule, Reachable (step fun _ => 7) genesis s ∧
    (s.coins (.other 0)).supply = .ok (some 60) ∧ (s.coins (.other 0)).Worth 60 := by
  have hs : exec (step fun _ => 7) genesis
      (.allowSupplyUpgrades 1 true :: upgradeRun.map (.coin (.other 0))) = .ok _ := rfl
  obtain ⟨total,htotal,hworth⟩ := (supply_conserved (.of_exec hs)).1 (.other 0) _ rfl rfl
  cases htotal
  exact ⟨_,.of_exec hs,rfl,hworth⟩

end CoinModule

end Arx
