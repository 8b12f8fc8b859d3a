import Arx.Movelib.Run

/-!
# The rate limiter

`TokenBucketRateLimiter` keeps a bucket of tokens for each key.
-/

namespace Arx.Network
open Movelib Function

/-- Times are in nanoseconds. -/
def ONE_SEC : ℕ := 1000000000

def USIZE_MAX : ℕ := 2 ^ 64 - 1

def saturatingAdd (a b : ℕ) : ℕ := min USIZE_MAX (a + b)

def saturatingMul (a b : ℕ) : ℕ := min USIZE_MAX (a * b)

structure Bucket where
  tokens : ℕ
  size : ℕ
  rate : ℕ
  lastRefreshTime : ℕ
  enabled : Bool

namespace Bucket

variable (b : Bucket) (now requested newTokens : ℕ)

/-- There is no bucket if the assertion fails. -/
def new (initial size rate : ℕ) : Option Bucket :=
  if rate ≤ size then some ⟨initial,size,rate,now,true⟩ else none

def unlimited : Bucket := ⟨USIZE_MAX,USIZE_MAX,USIZE_MAX,now,false⟩

def addTokens : Bucket := { b with tokens := min b.size (saturatingAdd b.tokens newTokens) }

def refill : Bucket :=
  let numIntervals := (now - b.lastRefreshTime) / ONE_SEC
  if 0 < numIntervals then
    { b.addTokens (saturatingMul numIntervals b.rate) with
      lastRefreshTime := b.lastRefreshTime + numIntervals * ONE_SEC }
  else b

def deductTokens : Bucket × ℕ := ({ b with tokens := b.tokens - requested },min b.tokens requested)

/-- The flag says whether the tokens are acquired. -/
def acquireAllTokens : Bucket × Bool :=
  if b.enabled = false ∨ requested = 0 then (b,true)
  else
    let b := b.refill now
    if requested ≤ b.tokens then ((b.deductTokens requested).1,true) else (b,false)

def timeOfNextRefill : ℕ := b.lastRefreshTime + ONE_SEC

def acquireTokens : Bucket × Except ℕ ℕ :=
  if b.enabled = false ∨ requested = 0 then (b,.ok requested)
  else
    let (b,allowed) := (b.refill now).deductTokens requested
    (b,if 0 < allowed then .ok allowed else .error b.timeOfNextRefill)

def returnTokens : Bucket := b.addTokens newTokens

end Bucket

structure SharedBucket where
  bucket : Bucket
  holders : ℕ

structure TokenBucketRateLimiter (Key : Type) where
  buckets : Key → Option SharedBucket
  newBucketStartPercentage : ℕ
  defaultBucketSize : ℕ
  defaultFillRate : ℕ
  enabled : Bool

variable {Key : Type} {shared : Option SharedBucket}

namespace TokenBucketRateLimiter

def new (newBucketStartPercentage defaultBucketSize defaultFillRate : ℕ) :
    Option (TokenBucketRateLimiter Key) :=
  if newBucketStartPercentage ≤ 100 ∧ 0 < defaultBucketSize ∧ 0 < defaultFillRate then
    some ⟨fun _ => none,newBucketStartPercentage,defaultBucketSize,defaultFillRate,true⟩
  else none

variable [DecidableEq Key] (l : TokenBucketRateLimiter Key) (key : Key)

def initialTokens : ℕ := saturatingMul l.defaultBucketSize l.newBucketStartPercentage / 100

def put (shared : Option SharedBucket) : TokenBucketRateLimiter Key :=
  { l with buckets := update l.buckets key shared }

def bucket (now : ℕ) : Option (TokenBucketRateLimiter Key) :=
  match l.buckets key with
  | some shared => some (l.put key (some ⟨shared.bucket,shared.holders + 1⟩))
  | none => do
    let bucket ← if l.enabled then
        Bucket.new now l.initialTokens l.defaultBucketSize l.defaultFillRate
      else some (.unlimited now)
    some (l.put key (some ⟨bucket,1⟩))

def tryGarbageCollectKey : TokenBucketRateLimiter Key × Bool :=
  match l.buckets key with
  | some shared => if shared.holders + 1 ≤ 1 then (l.put key none,true) else (l,false)
  | none => (l,false)

end TokenBucketRateLimiter

/-- The call cannot be made. -/
def UNAVAILABLE : Abort := .code 1

inductive BucketCall
  | bucket
  | release
  | acquireAllTokens (requested : ℕ)
  | acquireTokens (requested : ℕ)
  | returnTokens (newTokens : ℕ)
  | tryGarbageCollectKey

structure KeyedCall (Key : Type) where
  time : ℕ
  key : Key
  call : BucketCall

structure Usage (Key : Type) where
  limiter : TokenBucketRateLimiter Key
  now : ℕ
  acquired : Key → ℕ
  returned : Key → ℕ
  collected : Key → ℕ

namespace Usage

def start (limiter : TokenBucketRateLimiter Key) (now : ℕ) : Usage Key :=
  ⟨limiter,now,fun _ => 0,fun _ => 0,fun _ => 0⟩

variable [DecidableEq Key] (u : Usage Key)

/-- A call on the bucket of a key, which somebody refers to. The tokens that are acquired and
returned are counted. -/
def onBucket (key : Key) (f : Bucket → Bucket × ℕ × ℕ) : Result (Usage Key) :=
  match u.limiter.buckets key with
  | some ⟨bucket,holders + 1⟩ =>
    let (bucket,acquired,returned) := f bucket
    .ok { u with
      limiter := u.limiter.put key (some ⟨bucket,holders + 1⟩)
      acquired := update u.acquired key (u.acquired key + acquired)
      returned := update u.returned key (u.returned key + returned) }
  | _ => .error UNAVAILABLE

/-- Time does not go back. -/
def step (e : KeyedCall Key) : Result (Usage Key) :=
  let next := { u with now := e.time }
  if u.now ≤ e.time then
    match e.call with
    | .bucket =>
      match u.limiter.bucket e.key e.time with
      | some limiter => .ok { next with limiter }
      | none => .error UNAVAILABLE
    | .release =>
      match u.limiter.buckets e.key with
      | some ⟨bucket,holders + 1⟩ =>
        .ok { next with limiter := u.limiter.put e.key (some ⟨bucket,holders⟩) }
      | _ => .error UNAVAILABLE
    | .acquireAllTokens requested => next.onBucket e.key fun b =>
      let (b,all) := b.acquireAllTokens e.time requested
      (b,if all then requested else 0,0)
    | .acquireTokens requested => next.onBucket e.key fun b =>
      let (b,allowed) := b.acquireTokens e.time requested
      (b,allowed.toOption.getD 0,0)
    | .returnTokens newTokens => next.onBucket e.key fun b => (b.returnTokens newTokens,0,newTokens)
    | .tryGarbageCollectKey =>
      let (limiter,removed) := u.limiter.tryGarbageCollectKey e.key
      .ok { next with
        limiter := limiter
        collected := update u.collected e.key (u.collected e.key + removed.toNat) }
  else .error UNAVAILABLE

end Usage

namespace Bucket

variable {b b' : Bucket} {now requested n : ℕ}

/-- What a call at some time does with a bucket: it is filled for `n` seconds, and tokens are
acquired and returned. -/
structure Moves (b : Bucket) (now : ℕ) (b' : Bucket) (acquired returned : ℕ) : Prop where
  same : b'.size = b.size ∧ b'.rate = b.rate ∧ b'.enabled = b.enabled
  fits : b'.tokens ≤ b.size ∧ b'.lastRefreshTime ≤ now
  intervals : ∃ n, b'.lastRefreshTime = b.lastRefreshTime + n * ONE_SEC ∧
    b'.tokens + acquired ≤ b.tokens + b.rate * n + returned
  filled : acquired = 0 ∨ now < b'.lastRefreshTime + ONE_SEC ∧ b'.tokens + acquired ≤ b.size

variable (hfits : b.tokens ≤ b.size) (htime : b.lastRefreshTime ≤ now)

include hfits htime

theorem refill_moves : Moves b now (b.refill now) 0 0 ∧
    now < (b.refill now).lastRefreshTime + ONE_SEC := by
  have hsec : 0 < ONE_SEC := by decide
  have hdiv := Nat.div_add_mod (now - b.lastRefreshTime) ONE_SEC
  have hmod := Nat.mod_lt (now - b.lastRefreshTime) hsec
  rw [Nat.mul_comm] at hdiv
  rw [refill]
  split_ifs with hn
  · refine ⟨⟨⟨rfl,rfl,rfl⟩,⟨min_le_left _ _,?_⟩,⟨_,rfl,?_⟩,.inl rfl⟩,?_⟩
    · dsimp only
      omega
    · have hmul := min_le_right USIZE_MAX ((now - b.lastRefreshTime) / ONE_SEC * b.rate)
      rw [Nat.mul_comm b.rate]
      refine ((min_le_right _ _).trans (min_le_right _ _)).trans ?_
      exact Nat.add_le_add_left hmul _
    · dsimp only
      omega
  · rw [Nat.eq_zero_of_not_pos hn] at hdiv
    exact ⟨⟨⟨rfl,rfl,rfl⟩,⟨hfits,htime⟩,⟨0,by omega,by omega⟩,.inl rfl⟩,by omega⟩

theorem deductTokens_moves (requested : ℕ) : Moves b now ((b.refill now).deductTokens requested).1
    (min (b.refill now).tokens requested) 0 := by
  obtain ⟨⟨hsame,hfits',⟨n,hn,htokens⟩,-⟩,hnow⟩ := refill_moves hfits htime
  have hsum : (b.refill now).tokens - requested + min (b.refill now).tokens requested =
      (b.refill now).tokens := by omega
  exact ⟨hsame,⟨(Nat.sub_le _ _).trans hfits'.1,hfits'.2⟩,⟨n,hn,hsum.trans_le htokens⟩,
    .inr ⟨hnow,hsum.trans_le hfits'.1⟩⟩

omit hfits in
theorem returnTokens_moves : Moves b now (b.returnTokens n) 0 n :=
  ⟨⟨rfl,rfl,rfl⟩,⟨min_le_left _ _,htime⟩,
    ⟨0,(Nat.add_zero _).symm,(min_le_right _ _).trans (min_le_right _ _)⟩,.inl rfl⟩

theorem idle_moves : Moves b now b 0 0 :=
  ⟨⟨rfl,rfl,rfl⟩,⟨hfits,htime⟩,⟨0,by omega,by omega⟩,.inl rfl⟩

theorem acquireAllTokens_moves (henabled : b.enabled = true) :
    Moves b now (b.acquireAllTokens now requested).1
      (if (b.acquireAllTokens now requested).2 then requested else 0) 0 := by
  by_cases hzero : requested = 0
  · rw [acquireAllTokens,if_pos (.inr hzero),hzero]
    exact idle_moves hfits htime
  · rw [acquireAllTokens,if_neg (by simp [henabled,hzero])]
    by_cases hall : requested ≤ (b.refill now).tokens
    · have hmoves := deductTokens_moves hfits htime requested
      rw [min_eq_right hall] at hmoves
      simpa only [hall,if_true] using hmoves
    · simpa only [hall,if_false,Bool.false_eq_true] using (refill_moves hfits htime).1

theorem acquireTokens_moves (henabled : b.enabled = true) :
    Moves b now (b.acquireTokens now requested).1
      ((b.acquireTokens now requested).2.toOption.getD 0) 0 := by
  by_cases hzero : requested = 0
  · rw [acquireTokens,if_pos (.inr hzero),hzero]
    exact idle_moves hfits htime
  · have hmoves := deductTokens_moves hfits htime requested
    rw [acquireTokens,if_neg (by simp [henabled,hzero])]
    dsimp only [deductTokens] at hmoves ⊢
    split_ifs with hpos
    · exact hmoves
    · rwa [Nat.eq_zero_of_not_pos hpos] at hmoves

end Bucket

/-- What may be acquired of a key from `a` to `t` when its bucket is collected `c` times. -/
def TokenBucketRateLimiter.allowance (l : TokenBucketRateLimiter Key) (a t c : ℕ) : ℕ :=
  l.defaultBucketSize + l.defaultFillRate * ((t + ONE_SEC - a) / ONE_SEC) + c * l.initialTokens

/-- The tokens in a bucket are left over from those that may be acquired. -/
structure Kept (l : TokenBucketRateLimiter Key) (a now acquired returned collected : ℕ)
    (b : Bucket) : Prop where
  size : b.size = l.defaultBucketSize
  rate : b.rate = l.defaultFillRate
  enabled : b.enabled = true
  tokens : b.tokens ≤ b.size
  time : b.lastRefreshTime ≤ now
  sum : acquired + b.tokens ≤ returned + l.allowance a b.lastRefreshTime collected
  filled : acquired = 0 ∨ a < b.lastRefreshTime + ONE_SEC

def Entry (l : TokenBucketRateLimiter Key) (a now acquired returned collected : ℕ) :
    Option SharedBucket → Prop
  | some shared => Kept l a now acquired returned collected shared.bucket
  | none => acquired + l.initialTokens ≤ returned + l.allowance a now collected

section Runs

variable {l : TokenBucketRateLimiter Key} {a now now' acquired returned collected : ℕ} {b : Bucket}

theorem allowance_mono (h : now ≤ now') :
    l.allowance a now collected ≤ l.allowance a now' collected := by
  have hdiv : (now + ONE_SEC - a) / ONE_SEC ≤ (now' + ONE_SEC - a) / ONE_SEC :=
    Nat.div_le_div_right (by omega)
  exact Nat.add_le_add_right (Nat.add_le_add_left (Nat.mul_le_mul_left _ hdiv) _) _

theorem Entry.mono (hnow : now ≤ now') (h : Entry l a now acquired returned collected shared) :
    Entry l a now' acquired returned collected shared := by
  cases shared with
  | some shared => exact { h with time := h.time.trans hnow }
  | none => exact h.trans (Nat.add_le_add_left (allowance_mono hnow) _)

theorem size_le_allowance : l.defaultBucketSize ≤ l.allowance a now collected :=
  (Nat.le_add_right _ _).trans (Nat.le_add_right _ _)

theorem Entry.acquired_le (h : Entry l a now acquired returned collected shared) :
    acquired ≤ returned + l.allowance a now collected := by
  cases shared with
  | some shared =>
    have hsum := h.sum.trans (Nat.add_le_add_left (allowance_mono h.time) _)
    exact (Nat.le_add_right _ _).trans hsum
  | none => exact (Nat.le_add_right _ _).trans h

theorem Kept.moves {b' : Bucket} {n m : ℕ} (h : Kept l a now acquired returned collected b)
    (ha : a ≤ now') (hm : b.Moves now' b' n m) :
    Kept l a now' (acquired + n) (returned + m) collected b' := by
  obtain ⟨hsize,hrate,henabled⟩ := hm.same
  obtain ⟨k,hk,htokens⟩ := hm.intervals
  have hsum := h.sum
  refine ⟨hsize.trans h.size,hrate.trans h.rate,henabled.trans h.enabled,hsize ▸ hm.fits.1,hm.fits.2,
    ?_,?_⟩
  · rw [TokenBucketRateLimiter.allowance] at hsum ⊢
    obtain hzero | hlate := h.filled
    · -- nothing has been acquired before, and the bucket is not more than full
      have hfits := hm.fits.1
      have hsz := h.size
      obtain h0 | ⟨-,hfilled⟩ := hm.filled
      · omega
      · omega
    · have hdiv : (b'.lastRefreshTime + ONE_SEC - a) / ONE_SEC =
          (b.lastRefreshTime + ONE_SEC - a) / ONE_SEC + k := by
        rw [hk,show b.lastRefreshTime + k * ONE_SEC + ONE_SEC - a =
          b.lastRefreshTime + ONE_SEC - a + k * ONE_SEC by omega]
        exact Nat.add_mul_div_right _ _ (by decide)
      rw [h.rate] at htokens
      rw [hdiv,Nat.mul_add]
      omega
  · obtain h0 | ⟨hlate,-⟩ := hm.filled
    · rw [h0]
      exact h.filled.imp_right fun h => by omega
    · exact .inr (by omega)

namespace Usage

variable [DecidableEq Key] {u u' : Usage Key} {e : KeyedCall Key} {key : Key}

structure Sound (l : TokenBucketRateLimiter Key) (a : ℕ) (u : Usage Key) : Prop where
  same : u.limiter = { l with buckets := u.limiter.buckets }
  entry : ∀ k, Entry l a u.now (u.acquired k) (u.returned k) (u.collected k) (u.limiter.buckets k)

theorem Sound.update (h : Sound l a u) (key : Key) (hnow : u.now ≤ now)
    (hentry : Entry l a now acquired returned collected shared) :
    Sound l a ⟨u.limiter.put key shared,now,update u.acquired key acquired,
      update u.returned key returned,update u.collected key collected⟩ := by
  refine ⟨congrArg (TokenBucketRateLimiter.put · key shared) h.same,fun k => ?_⟩
  by_cases hk : k = key
  · subst hk
    simp only [TokenBucketRateLimiter.put,update_self]
    exact hentry
  · simp only [TokenBucketRateLimiter.put,update_of_ne hk]
    exact (h.entry k).mono hnow

theorem Sound.hold (h : Sound l a u) (hnow : u.now ≤ now)
    (hentry : Entry l a now (u.acquired key) (u.returned key) (u.collected key) shared) :
    Sound l a { u with now, limiter := u.limiter.put key shared } := by
  have hsound := h.update key hnow hentry
  simpa only [update_eq_self] using hsound

theorem onBucket_sound {f : Bucket → Bucket × ℕ × ℕ} (h : Sound l a u) (hnow : u.now ≤ now)
    (ha : a ≤ now) (hstep : onBucket { u with now } key f = .ok u')
    (hf : ∀ b : Bucket, b.tokens ≤ b.size → b.lastRefreshTime ≤ now → b.enabled = true →
      b.Moves now (f b).1 (f b).2.1 (f b).2.2) : Sound l a u' := by
  have hentry := h.entry key
  rw [onBucket] at hstep
  split at hstep
  · next b holders hb =>
    cases hstep
    rw [hb] at hentry
    have hmoves := hf b hentry.tokens (hentry.time.trans hnow) hentry.enabled
    have hkept : Entry l a now _ _ _ (some ⟨(f b).1,holders + 1⟩) := hentry.moves ha hmoves
    have hsound := h.update key hnow hkept
    rwa [update_eq_self] at hsound
  · cases hstep

omit [DecidableEq Key] in
theorem Sound.later (h : Sound l a u) (hnow : u.now ≤ now) : Sound l a { u with now } :=
  ⟨h.same,fun k => (h.entry k).mono hnow⟩

theorem Sound.collect (h : Sound l a u) (hnow : u.now ≤ now) :
    Sound l a { u with
      now
      limiter := (u.limiter.tryGarbageCollectKey key).1
      collected := Function.update u.collected key
        (u.collected key + (u.limiter.tryGarbageCollectKey key).2.toNat) } := by
  have hentry := h.entry key
  have hlater := h.later hnow
  rw [TokenBucketRateLimiter.tryGarbageCollectKey]
  split
  · next shared hb =>
    split_ifs with hlast
    · have hnone : Entry l a now (u.acquired key) (u.returned key) (u.collected key + 1) none := by
        -- the allowance grows by the tokens that the next bucket starts with
        have hle := (hentry.mono hnow).acquired_le
        rw [TokenBucketRateLimiter.allowance] at hle
        rw [Entry,TokenBucketRateLimiter.allowance,Nat.succ_mul]
        omega
      have hsound := h.update key hnow hnone
      rwa [update_eq_self,update_eq_self] at hsound
    · simpa only [Bool.toNat_false,Nat.add_zero,update_eq_self] using hlater
  · simpa only [Bool.toNat_false,Nat.add_zero,update_eq_self] using hlater

variable (henabled : l.enabled = true) (hinitial : l.initialTokens ≤ l.defaultBucketSize)

include henabled hinitial

theorem Sound.bucket {limiter : TokenBucketRateLimiter Key} (h : Sound l a u) (hnow : u.now ≤ now)
    (ha : a ≤ now) (hl : u.limiter.bucket key now = some limiter) :
    Sound l a { u with now, limiter } := by
  have hentry := (h.entry key).mono hnow
  rw [TokenBucketRateLimiter.bucket] at hl
  split at hl
  · next shared hb =>
    cases hl
    rw [hb] at hentry
    exact h.hold hnow hentry
  · next hb =>
    have hon : u.limiter.enabled = true := (congrArg (·.enabled) h.same).trans henabled
    have hstart : u.limiter.initialTokens = l.initialTokens := congrArg (·.initialTokens) h.same
    have hsize : u.limiter.defaultBucketSize = l.defaultBucketSize :=
      congrArg (·.defaultBucketSize) h.same
    rw [Bucket.new] at hl
    split_ifs at hl
    · cases hl
      rw [hb] at hentry
      refine h.hold hnow ⟨hsize,congrArg (·.defaultFillRate) h.same,rfl,?_,le_rfl,?_,.inr ?_⟩
      · exact (hstart.trans_le hinitial).trans_eq hsize.symm
      · exact hstart ▸ hentry
      · exact Nat.lt_add_of_pos_right (by decide) |>.trans_le' ha
    · cases hl

theorem step_sound (h : Sound l a u) (ha : a ≤ e.time) (hstep : u.step e = .ok u') :
    Sound l a u' := by
  obtain ⟨time,key,call⟩ := e
  rw [step] at hstep
  split_ifs at hstep with hnow
  cases call with
  | bucket =>
    dsimp only at hstep
    split at hstep
    · next limiter hl =>
      cases hstep
      exact h.bucket henabled hinitial hnow ha hl
    · cases hstep
  | release =>
    dsimp only at hstep
    split at hstep
    · next b holders hb =>
      cases hstep
      have hentry := h.entry key
      rw [hb] at hentry
      exact h.hold hnow (hentry.mono hnow)
    · cases hstep
  | acquireAllTokens requested =>
    exact onBucket_sound h hnow ha hstep fun b => Bucket.acquireAllTokens_moves
  | acquireTokens requested =>
    exact onBucket_sound h hnow ha hstep fun b => Bucket.acquireTokens_moves
  | returnTokens n =>
    exact onBucket_sound h hnow ha hstep fun b _ ht _ => Bucket.returnTokens_moves ht
  | tryGarbageCollectKey =>
    cases hstep
    exact h.collect hnow

omit [DecidableEq Key] henabled in
theorem start_sound (hnone : ∀ k, l.buckets k = none) : Sound l a (.start l now) := by
  refine ⟨rfl,fun k => ?_⟩
  dsimp only [start]
  rw [hnone k]
  exact Nat.add_le_add_left (hinitial.trans size_le_allowance) 0

omit [DecidableEq Key] henabled in
theorem Sound.window (h : Sound l 0 u) : Sound l a (.start u.limiter u.now) := by
  refine ⟨h.same,fun k => ?_⟩
  have hentry := h.entry k
  dsimp only [start]
  cases hb : u.limiter.buckets k with
  | some shared =>
    rw [hb] at hentry
    have hfits := hentry.tokens.trans_eq hentry.size
    exact { hentry with
      sum := Nat.add_le_add_left (hfits.trans size_le_allowance) 0
      filled := .inl rfl }
  | none => exact Nat.add_le_add_left (hinitial.trans size_le_allowance) 0

end Usage

end Runs

section Limit

variable [DecidableEq Key] {pct size rate t a w : ℕ} {l : TokenBucketRateLimiter Key}
  {u u' : Usage Key} {es : List (KeyedCall Key)}

/-- Whatever the calls before, the tokens of a key that are acquired in a window of `w` seconds, and
not returned, are those of a full bucket, those of `w + 1` fillings and, for each time that the
bucket is collected in the window, those of a new bucket. -/
theorem acquired_le_of_window (hnew : TokenBucketRateLimiter.new pct size rate = some l)
    (hbefore : Reachable Usage.step (.start l t) u)
    (hrun : Run Usage.step (fun _ e => a ≤ e.time) (.start u.limiter u.now) es u')
    (hw : u'.now ≤ a + w * ONE_SEC) (k : Key) :
    u'.acquired k ≤
      u'.returned k + size + rate * (w + 1) + u'.collected k * (size * pct / 100) := by
  rw [TokenBucketRateLimiter.new] at hnew
  split_ifs at hnew with hpct
  cases hnew
  have hmul : size * pct / 100 ≤ size :=
    Nat.div_le_of_le_mul ((Nat.mul_le_mul_left size hpct.1).trans_eq (Nat.mul_comm _ _))
  have hstart := Nat.div_le_div_right (c := 100) (min_le_right USIZE_MAX (size * pct))
  have hinitial : (⟨fun _ => none,pct,size,rate,true⟩ : TokenBucketRateLimiter Key).initialTokens ≤
      size := hstart.trans hmul
  have hsound := hbefore.invariant (Usage.start_sound hinitial fun _ => rfl) fun _ _ _ h hs =>
    Usage.step_sound rfl hinitial h (Nat.zero_le _) hs
  have hwindow := hrun.invariant (hsound.window hinitial) fun _ _ _ h hg hs =>
    Usage.step_sound rfl hinitial h hg hs
  have hdiv : (u'.now + ONE_SEC - a) / ONE_SEC ≤ w + 1 :=
    Nat.div_le_of_le_mul (by rw [Nat.mul_succ,Nat.mul_comm]; omega)
  calc u'.acquired k
      ≤ u'.returned k + _ := (hwindow.entry k).acquired_le
    _ ≤ u'.returned k + (size + rate * (w + 1) + u'.collected k * (size * pct / 100)) :=
      Nat.add_le_add_left (Nat.add_le_add
        (Nat.add_le_add_left (Nat.mul_le_mul_left rate hdiv) size) (Nat.mul_le_mul_left _ hstart)) _
    _ = _ := by omega

/-- The bucket is collected in a window of no length. -/
theorem acquired_le_of_window_sample : ∃ u u' : Usage Unit,
    Reachable Usage.step (.start ⟨fun _ => none,100,2,1,true⟩ 0) u ∧
    u'.acquired () = 4 ∧ u'.acquired () ≤
      u'.returned () + 2 + 1 * (0 + 1) + u'.collected () * (2 * 100 / 100) := by
  have hbefore : exec Usage.step (.start ⟨fun _ => none,100,2,1,true⟩ 0)
      ([.bucket,.acquireAllTokens 1].map fun c => ⟨3,(),c⟩) = .ok _ := rfl
  exact ⟨_,_,.of_exec hbefore,rfl,acquired_le_of_window (a := 5) (w := 0) rfl (.of_exec hbefore)
    (.of_reaches (reaches_iff_exec.mpr (rfl : exec Usage.step _ ([.returnTokens 1,.acquireTokens 2,
      .release,.tryGarbageCollectKey,.bucket,.acquireAllTokens 2].map fun c => ⟨5,(),c⟩) = _))
      (by simp)) (by decide) ()⟩

/-- Two collected buckets in no time: three tokens are acquired where the size is one. -/
theorem acquired_of_collected : ∃ (l : TokenBucketRateLimiter Unit) (u' : Usage Unit),
    TokenBucketRateLimiter.new 100 1 1 = some l ∧
    Run Usage.step (fun _ e => 0 ≤ e.time) (.start l 0) ([.bucket,.acquireTokens 1,.release,
      .tryGarbageCollectKey,.bucket,.acquireTokens 1,.release,.tryGarbageCollectKey,.bucket,
      .acquireTokens 1].map fun c => ⟨0,(),c⟩) u' ∧
    u'.now ≤ 0 + 0 * ONE_SEC ∧ ¬u'.acquired () ≤ u'.returned () + 1 + 1 * (0 + 1) :=
  ⟨_,_,rfl,.of_reaches (reaches_iff_exec.mpr rfl) (fun _ _ _ => Nat.zero_le _),by decide,by decide⟩

end Limit

end Arx.Network
