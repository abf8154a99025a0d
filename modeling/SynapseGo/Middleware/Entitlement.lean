import SynapseGo.Middleware.Platform

/-! What a request that gets through the guards of its route is entitled to, whatever is issued, revoked and
changed while it is on its way. -/
namespace SynapseGo.Middleware.Platform
open SynapseGo.Go SynapseGo.Concurrency SynapseGo.Auth

abbrev Act := Σ op : Op, Reply op

section Returns
variable {decode : GoString → Option Token} {es : List Act} {ctx ctx' : Context}

theorem checkVersion_returns {kind : Kind} {lookup : Bool} {principalID : UInt64} {version : Int64}
    (h : (checkVersion kind lookup principalID version).Returns es none) :
    lookup = true → ⟨.tokenVersion kind principalID, some version⟩ ∈ es := by
  intro hlookup
  unfold checkVersion at h
  rw [if_pos hlookup] at h
  obtain ⟨current, es₁, rfl, hrest⟩ := Prog.returns_op.mp h
  cases current with
  | none => exact nomatch (Prog.returns_ret.mp hrest).2
  | some current =>
    have hresult := (Prog.returns_ret.mp hrest).2
    split_ifs at hresult with hsame
    rw [not_not.mp hsame]
    exact List.mem_cons_self

theorem parseText_eq_some {α : Type} {k : TokenKind α} {svc : TokenService} {now : ℤ} {tok : GoString}
    {claims : α} (h : parseText decode k svc now tok = some claims) :
    ∃ token, decode tok = some token ∧ k.parse svc now token = .ok claims := by
  unfold parseText at h
  cases hdecode : decode tok with
  | none =>
    rw [hdecode] at h
    cases h
  | some token =>
    have hparse : (k.parse svc now token).toOption = some claims := by
      rw [hdecode] at h
      exact h
    refine ⟨token, rfl, ?_⟩
    cases hclaims : k.parse svc now token with
    | error err =>
      rw [hclaims] at hparse
      cases hparse
    | ok claims' =>
      rw [hclaims] at hparse
      rw [Option.some.inj hparse]

/-- What a token guard has seen when it lets a request through. -/
structure Verified {α : Type} (decode : GoString → Option Token) (k : TokenKind α) (g : TokenGuard)
    (header : GoString) (es : List Act) (ctx ctx' : Context) (svc : TokenService) (claims : α) : Prop where
  service : g.tokenSvc = some svc
  parsed : ∃ token now, decode (bearerToken header) = some token ∧ k.parse svc now token = .ok claims ∧
    ⟨.now, now⟩ ∈ es
  current : g.tokenVersion = true →
    ⟨.tokenVersion k.kind (k.principalID claims), some (k.tokenVersion claims)⟩ ∈ es
  installed : ∃ soon, ctx' = { k.install ctx claims with expiringSoon := soon }

theorem verifyToken_returns {α : Type} {k : TokenKind α} {g : TokenGuard} {header : GoString}
    (h : (verifyToken decode k g header ctx).Returns es (.ok ctx')) :
    ∃ svc claims, Verified decode k g header es ctx ctx' svc claims := by
  unfold verifyToken at h
  dsimp only at h
  by_cases hempty : bearerToken header = []
  · rw [if_pos hempty] at h
    exact nomatch (Prog.returns_ret.mp h).2
  rw [if_neg hempty] at h
  cases hsvc : g.tokenSvc with
  | none =>
    rw [hsvc] at h
    exact nomatch (Prog.returns_ret.mp h).2
  | some svc =>
    rw [hsvc] at h
    obtain ⟨now, es₁, rfl, hrest⟩ := Prog.returns_op.mp h
    have huse : (useClaims k g ctx (parseText decode k svc now (bearerToken header))).Returns es₁
      (.ok ctx') := hrest
    cases hparse : parseText decode k svc now (bearerToken header) with
    | none =>
      rw [hparse] at huse
      exact nomatch (Prog.returns_ret.mp huse).2
    | some claims =>
      rw [hparse] at huse
      obtain ⟨token, hdecode, hclaims⟩ := parseText_eq_some hparse
      obtain ⟨error, es₂, es₃, rfl, hversion, hlast⟩ := Prog.returns_bind.mp huse
      cases error with
      | some error => exact nomatch (Prog.returns_ret.mp hlast).2
      | none =>
        obtain ⟨later, es₄, rfl, hret⟩ := Prog.returns_op.mp hlast
        refine ⟨svc, claims, hsvc, ⟨token, now, hdecode, hclaims, List.mem_cons_self⟩, ?_, ?_⟩
        · intro hlookup
          exact List.mem_cons_of_mem _ (List.mem_append_left _ (checkVersion_returns hversion hlookup))
        · exact ⟨_, (Except.ok.inj (Prog.returns_ret.mp hret).2).symm⟩

theorem requireFeature_returns {svc : Bool} {featureCode : GoString}
    (h : (requireFeature svc featureCode ctx).Returns es (.ok ctx')) : ctx' = ctx ∧
      (ctx.platformClaims.isSome = true ∨ ∃ claims, ctx.tenantClaims = some claims ∧
        ⟨.isEnabled claims.tenantID featureCode, some true⟩ ∈ es) := by
  unfold requireFeature at h
  by_cases hplatform : ctx.platformClaims.isSome = true
  · rw [if_pos hplatform] at h
    exact ⟨(Except.ok.inj (Prog.returns_ret.mp h).2).symm, .inl hplatform⟩
  rw [if_neg hplatform] at h
  cases hclaims : ctx.tenantClaims.filter fun claims => claims.tenantID ≠ 0 with
  | none =>
    rw [hclaims] at h
    exact nomatch (Prog.returns_ret.mp h).2
  | some claims =>
    rw [hclaims] at h
    dsimp only at h
    split_ifs at h with hsvc
    · exact nomatch (Prog.returns_ret.mp h).2
    obtain ⟨enabled, es₁, rfl, hrest⟩ := Prog.returns_op.mp h
    cases enabled with
    | none => exact nomatch (Prog.returns_ret.mp hrest).2
    | some enabled =>
      cases enabled with
      | false => exact nomatch (Prog.returns_ret.mp hrest).2
      | true =>
        refine ⟨(Except.ok.inj (Prog.returns_ret.mp hrest).2).symm, .inr ⟨claims, ?_, List.mem_cons_self⟩⟩
        exact (Option.filter_eq_some_iff.mp hclaims).1

theorem tenantClaimsForPath_eq_ok {param : GoString → GoString} {paramName : GoString} {claims : TenantClaims}
    (hname : paramName ≠ []) (h : tenantClaimsForPath param paramName ctx = .ok claims) :
    ctx.tenantClaims = some claims ∧ parseUintID (param paramName) = some claims.tenantID := by
  unfold tenantClaimsForPath at h
  rw [if_neg hname] at h
  cases hclaims : ctx.tenantClaims with
  | none =>
    rw [hclaims] at h
    cases h
  | some claims' =>
    rw [hclaims] at h
    dsimp only at h
    split_ifs at h with hpath
    cases h
    exact ⟨rfl, hpath⟩

theorem pathParam_ne_nil (paramName : List GoString) : pathParam paramName ≠ [] := by
  have hdefault : lit "tenant_id" ≠ [] := by decide
  cases paramName with
  | nil => exact hdefault
  | cons name rest =>
    show (if name = [] then lit "tenant_id" else name) ≠ []
    split_ifs with hname
    · exact hdefault
    · exact hname

theorem requireTenantPermission_returns {param : GoString → GoString} {authz : Bool} {permCode : GoString}
    {paramName : List GoString}
    (h : (requireTenantPermission param authz permCode paramName ctx).Returns es (.ok ctx')) :
    ctx' = ctx ∧ ∃ claims, ctx.tenantClaims = some claims ∧
      parseUintID (param (pathParam paramName)) = some claims.tenantID ∧
      ⟨.hasPermission claims.tenantID claims.principalID permCode, some true⟩ ∈ es := by
  unfold requireTenantPermission at h
  cases hpath : tenantClaimsForPath param (pathParam paramName) ctx with
  | error refusal =>
    rw [hpath] at h
    exact nomatch (Prog.returns_ret.mp h).2
  | ok claims =>
    rw [hpath] at h
    dsimp only at h
    split_ifs at h with hauthz
    · exact nomatch (Prog.returns_ret.mp h).2
    obtain ⟨allowed, es₁, rfl, hrest⟩ := Prog.returns_op.mp h
    cases allowed with
    | none => exact nomatch (Prog.returns_ret.mp hrest).2
    | some allowed =>
      cases allowed with
      | false => exact nomatch (Prog.returns_ret.mp hrest).2
      | true =>
        obtain ⟨hclaims, hid⟩ := tenantClaimsForPath_eq_ok (pathParam_ne_nil paramName) hpath
        exact ⟨(Except.ok.inj (Prog.returns_ret.mp hrest).2).symm, claims, hclaims, hid, List.mem_cons_self⟩

/-- One guard of a route that has let a request through. -/
inductive Passed (decode : GoString → Option Token) (r : Request) :
    Guard → List Act → Context → Context → Prop
  | platformToken {g : TokenGuard} {es : List Act} {ctx ctx' : Context} {svc : TokenService}
      {claims : PlatformClaims}
    (h : Verified decode platform g r.authorization es ctx ctx' svc claims) :
    Passed decode r (.platformToken g) es ctx ctx'
  | tenantToken {g : TokenGuard} {es : List Act} {ctx ctx' : Context} {svc : TokenService}
      {claims : TenantClaims}
    (h : Verified decode tenant g r.authorization es ctx ctx' svc claims) :
    Passed decode r (.tenantToken g) es ctx ctx'
  | requireFeature {svc : Bool} {featureCode : GoString} {es : List Act} {ctx : Context}
    (h : ctx.platformClaims.isSome = true ∨ ∃ claims, ctx.tenantClaims = some claims ∧
      ⟨.isEnabled claims.tenantID featureCode, some true⟩ ∈ es) :
    Passed decode r (.requireFeature svc featureCode) es ctx ctx
  | requireTenantPermission {authz : Bool} {permCode : GoString} {paramName : List GoString} {es : List Act}
    {ctx : Context} {claims : TenantClaims} (hclaims : ctx.tenantClaims = some claims)
    (hpath : parseUintID (r.param (pathParam paramName)) = some claims.tenantID)
    (hallowed : ⟨.hasPermission claims.tenantID claims.principalID permCode, some true⟩ ∈ es) :
    Passed decode r (.requireTenantPermission authz permCode paramName) es ctx ctx

theorem check_returns {r : Request} {g : Guard} (h : (g.check decode r ctx).Returns es (.ok ctx')) :
    Passed decode r g es ctx ctx' := by
  cases g with
  | platformToken g =>
    obtain ⟨svc, claims, hverified⟩ := verifyToken_returns h
    exact .platformToken hverified
  | tenantToken g =>
    obtain ⟨svc, claims, hverified⟩ := verifyToken_returns h
    exact .tenantToken hverified
  | requireFeature svc featureCode =>
    obtain ⟨rfl, hfeature⟩ := requireFeature_returns h
    exact .requireFeature hfeature
  | requireTenantPermission authz permCode paramName =>
    obtain ⟨rfl, claims, hclaims, hpath, hallowed⟩ := requireTenantPermission_returns h
    exact .requireTenantPermission hclaims hpath hallowed

/-- All guards of a route, one after another. -/
inductive PassedAll (decode : GoString → Option Token) (r : Request) :
    List Guard → List Act → Context → Context → Prop
  | nil (ctx : Context) : PassedAll decode r [] [] ctx ctx
  | cons {g : Guard} {route : List Guard} {es es' : List Act} {ctx ctx₁ ctx' : Context}
    (hg : Passed decode r g es ctx ctx₁) (hroute : PassedAll decode r route es' ctx₁ ctx') :
    PassedAll decode r (g :: route) (es ++ es') ctx ctx'

theorem checkAll_returns {r : Request} {route : List Guard}
    (h : (checkAll decode r route ctx).Returns es (.ok ctx')) : PassedAll decode r route es ctx ctx' := by
  induction route generalizing ctx es with
  | nil =>
    obtain ⟨rfl, hctx⟩ := Prog.returns_ret.mp h
    cases hctx
    exact .nil _
  | cons g route ih =>
    obtain ⟨result, es₁, es₂, rfl, hg, hrest⟩ := Prog.returns_bind.mp h
    cases result with
    | error refusal => exact nomatch (Prog.returns_ret.mp hrest).2
    | ok ctx₁ => exact .cons (check_returns hg) (ih hrest)

end Returns

section Guards
variable (decode : GoString → Option Token)

/-- The guards look and do not act. -/
def IsLookup : Op → Prop
  | .now => True
  | .tokenVersion _ _ => True
  | .isEnabled _ _ => True
  | .hasPermission _ _ _ => True
  | _ => False

theorem all_verifyToken {α : Type} (k : TokenKind α) (g : TokenGuard) (header : GoString) (ctx : Context) :
    (verifyToken decode k g header ctx).All IsLookup := by
  unfold verifyToken
  dsimp only
  split_ifs with hempty
  · trivial
  cases g.tokenSvc with
  | none => trivial
  | some svc =>
    refine ⟨trivial, fun now => ?_⟩
    show (useClaims k g ctx (parseText decode k svc now (bearerToken header))).All IsLookup
    cases parseText decode k svc now (bearerToken header) with
    | none => trivial
    | some claims =>
      have hversion :
        (checkVersion k.kind g.tokenVersion (k.principalID claims) (k.tokenVersion claims)).All IsLookup := by
        unfold checkVersion
        split_ifs with hlookup
        · refine ⟨trivial, fun current => ?_⟩
          cases current <;> trivial
        · trivial
      refine hversion.bind fun error => ?_
      cases error with
      | some error => trivial
      | none => exact ⟨trivial, fun _ => trivial⟩

theorem all_check (r : Request) (g : Guard) (ctx : Context) : (g.check decode r ctx).All IsLookup := by
  cases g with
  | platformToken g => exact all_verifyToken decode platform g r.authorization ctx
  | tenantToken g => exact all_verifyToken decode tenant g r.authorization ctx
  | requireFeature svc featureCode =>
    show (requireFeature svc featureCode ctx).All IsLookup
    unfold requireFeature
    by_cases hplatform : ctx.platformClaims.isSome = true
    · rw [if_pos hplatform]
      trivial
    rw [if_neg hplatform]
    cases ctx.tenantClaims.filter fun claims => claims.tenantID ≠ 0 with
    | none => trivial
    | some claims =>
      dsimp only
      split_ifs with hsvc
      · trivial
      refine ⟨trivial, fun enabled => ?_⟩
      cases enabled with
      | none => trivial
      | some enabled => cases enabled <;> trivial
  | requireTenantPermission authz permCode paramName =>
    show (requireTenantPermission r.param authz permCode paramName ctx).All IsLookup
    unfold requireTenantPermission
    cases tenantClaimsForPath r.param (pathParam paramName) ctx with
    | error refusal => trivial
    | ok claims =>
      dsimp only
      split_ifs with hauthz
      · trivial
      refine ⟨trivial, fun allowed => ?_⟩
      cases allowed with
      | none => trivial
      | some allowed => cases allowed <;> trivial

theorem all_checkAll (r : Request) (route : List Guard) (ctx : Context) :
    (checkAll decode r route ctx).All IsLookup := by
  induction route generalizing ctx with
  | nil => trivial
  | cons g route ih =>
    refine (all_check decode r g ctx).bind fun result => ?_
    cases result with
    | error refusal => trivial
    | ok ctx => exact ih ctx

end Guards

section Contexts
variable {decode : GoString → Option Token} {r : Request} {g : Guard} {route : List Guard} {es : List Act}
  {ctx ctx' : Context}

/-- The claims of a context are those of the request's token, and its ids are theirs. -/
structure Sourced (decode : GoString → Option Token) (r : Request) (ctx : Context) : Prop where
  platform : ∀ claims, ctx.platformClaims = some claims → ∃ token,
    decode (bearerToken r.authorization) = some token ∧ PlatformClaims.ofJson token.payload = some claims ∧
      claims.tokenType = lit "platform" ∧ Obs.principalIDFromContext ctx.request = some claims.principalID
  tenant : ∀ claims, ctx.tenantClaims = some claims → ∃ token,
    decode (bearerToken r.authorization) = some token ∧ TenantClaims.ofJson token.payload = some claims ∧
      claims.tokenType = lit "tenant" ∧ Obs.principalIDFromContext ctx.request = some claims.principalID ∧
      Obs.tenantIDFromContext ctx.request = some claims.tenantID

/-- The type of a token is read alike by both parsers. -/
theorem tokenType_agree {o : Object} {p : PlatformClaims} {t : TenantClaims}
    (hp : PlatformClaims.ofJson o = some p)
    (ht : TenantClaims.ofJson o = some t) : p.tokenType = t.tokenType := by
  simp only [PlatformClaims.ofJson, Option.bind_eq_bind, Option.bind_eq_some_iff] at hp
  simp only [TenantClaims.ofJson, Option.bind_eq_bind, Option.bind_eq_some_iff] at ht
  obtain ⟨_, -, _, -, _, -, _, -, tp, htp, _, -, hp⟩ := hp
  obtain ⟨_, -, _, -, _, -, _, -, _, -, _, -, tt, htt, _, -, _, -, ht⟩ := ht
  cases hp
  cases ht
  exact Option.some.inj (htp.symm.trans htt)

theorem platform_parse {svc : TokenService} {now : ℤ} {token : Token} {claims : PlatformClaims}
    (h : platform.parse svc now token = .ok claims) :
    PlatformClaims.ofJson token.payload = some claims ∧ claims.tokenType = lit "platform" := by
  obtain ⟨-, hpayload, -, hmismatch, -⟩ := TokenService.parseToken_eq_ok.mp h
  simp only [decide_eq_false_iff_not, not_or, not_not] at hmismatch
  exact ⟨hpayload, hmismatch.1⟩

theorem tenant_parse {svc : TokenService} {now : ℤ} {token : Token} {claims : TenantClaims}
    (h : tenant.parse svc now token = .ok claims) :
    TenantClaims.ofJson token.payload = some claims ∧ claims.tokenType = lit "tenant" := by
  obtain ⟨-, hpayload, -, hmismatch, -⟩ := TokenService.parseToken_eq_ok.mp h
  simp only [decide_eq_false_iff_not, not_or, not_not] at hmismatch
  exact ⟨hpayload, hmismatch.1⟩

/-- No token is of both kinds. -/
theorem Sourced.not_both (hs : Sourced decode r ctx) {token : Token} {p : PlatformClaims} {t : TenantClaims}
    (hdecode : decode (bearerToken r.authorization) = some token)
    (hp : PlatformClaims.ofJson token.payload = some p)
    (htype : p.tokenType = lit "platform") : ctx.tenantClaims ≠ some t := by
  intro ht
  obtain ⟨token', hdecode', hpayload, htype', -⟩ := hs.tenant t ht
  have htoken : token = token' := Option.some.inj (hdecode.symm.trans hdecode')
  subst htoken
  have hagree := tokenType_agree hp hpayload
  rw [htype, htype'] at hagree
  exact absurd hagree (by decide)

theorem Passed.sourced (hs : Sourced decode r ctx) (h : Passed decode r g es ctx ctx') :
    Sourced decode r ctx' := by
  cases h with
  | requireFeature h => exact hs
  | requireTenantPermission hclaims hpath hallowed => exact hs
  | platformToken h =>
    obtain ⟨-, ⟨token, now, hdecode, hparse, -⟩, -, soon, rfl⟩ := h
    obtain ⟨hpayload, htype⟩ := platform_parse hparse
    constructor
    · intro claims hclaims
      cases hclaims
      exact ⟨token, hdecode, hpayload, htype, rfl⟩
    · intro claims hclaims
      exact absurd hclaims (hs.not_both hdecode hpayload htype)
  | tenantToken h =>
    obtain ⟨-, ⟨token, now, hdecode, hparse, -⟩, -, soon, rfl⟩ := h
    obtain ⟨hpayload, htype⟩ := tenant_parse hparse
    constructor
    · intro claims hclaims
      obtain ⟨token', hdecode', hpayload', htype', -⟩ := hs.platform claims hclaims
      have htoken : token = token' := Option.some.inj (hdecode.symm.trans hdecode')
      subst htoken
      have hagree := tokenType_agree hpayload' hpayload
      rw [htype, htype'] at hagree
      exact absurd hagree (by decide)
    · intro claims hclaims
      cases hclaims
      exact ⟨token, hdecode, hpayload, htype, rfl, rfl⟩

/-- Claims stay once they are there. -/
structure Keeps (ctx ctx' : Context) : Prop where
  platform : ∀ claims, ctx.platformClaims = some claims → ctx'.platformClaims = some claims
  tenant : ∀ claims, ctx.tenantClaims = some claims → ctx'.tenantClaims = some claims

theorem Keeps.refl (ctx : Context) : Keeps ctx ctx := ⟨fun _ h => h, fun _ h => h⟩

theorem Keeps.trans {ctx₁ : Context} (h : Keeps ctx ctx₁) (h' : Keeps ctx₁ ctx') : Keeps ctx ctx' :=
  ⟨fun claims hc => h'.platform claims (h.platform claims hc), fun claims hc =>
    h'.tenant claims (h.tenant claims hc)⟩

theorem Passed.keeps (hs : Sourced decode r ctx) (h : Passed decode r g es ctx ctx') : Keeps ctx ctx' := by
  cases h with
  | requireFeature h => exact .refl _
  | requireTenantPermission hclaims hpath hallowed => exact .refl _
  | platformToken h =>
    obtain ⟨-, ⟨token, now, hdecode, hparse, -⟩, -, soon, rfl⟩ := h
    obtain ⟨hpayload, -⟩ := platform_parse hparse
    refine ⟨fun claims hclaims => ?_, fun claims hclaims => hclaims⟩
    -- a second guard of the kind reads the same token
    obtain ⟨token', hdecode', hpayload', -⟩ := hs.platform claims hclaims
    have htoken : token = token' := Option.some.inj (hdecode.symm.trans hdecode')
    subst htoken
    exact hpayload.symm.trans hpayload'
  | tenantToken h =>
    obtain ⟨-, ⟨token, now, hdecode, hparse, -⟩, -, soon, rfl⟩ := h
    obtain ⟨hpayload, -⟩ := tenant_parse hparse
    refine ⟨fun claims hclaims => hclaims, fun claims hclaims => ?_⟩
    obtain ⟨token', hdecode', hpayload', -⟩ := hs.tenant claims hclaims
    have htoken : token = token' := Option.some.inj (hdecode.symm.trans hdecode')
    subst htoken
    exact hpayload.symm.trans hpayload'

/-- What each guard has seen still stands when the last one has passed. -/
theorem PassedAll.spec (hs : Sourced decode r ctx) (h : PassedAll decode r route es ctx ctx') :
    Sourced decode r ctx' ∧ Keeps ctx ctx' ∧
      ∀ g ∈ route, ∃ es' ctx₁ ctx₂, es' ⊆ es ∧ Passed decode r g es' ctx₁ ctx₂ ∧ Keeps ctx₂ ctx' := by
  induction h with
  | nil ctx => exact ⟨hs, .refl ctx, nofun⟩
  | @cons g route es es' ctx ctx₁ ctx' hg hroute ih =>
    obtain ⟨hsourced, hkeeps, hmem⟩ := ih (hg.sourced hs)
    refine ⟨hsourced, (hg.keeps hs).trans hkeeps, fun g' hg' => ?_⟩
    cases List.mem_cons.mp hg' with
    | inl heq =>
      subst heq
      exact ⟨es, ctx, ctx₁, List.subset_append_left es es', hg, hkeeps⟩
    | inr hlater =>
      obtain ⟨es₁, c, c', hsub, hpassed, hkept⟩ := hmem g' hlater
      exact ⟨es₁, c, c', List.subset_append_of_subset_right es hsub, hpassed, hkept⟩

theorem sourced_empty : Sourced decode r .empty := ⟨nofun, nofun⟩

end Contexts

/-- What happens beside the requests. -/
inductive Change where
  | issue (s : TokenService) (call : Issuance)
  | tokenVersion (kind : Kind) (principalID : UInt64) (version : Int64)
  | enabled (tenantID : UInt64) (featureCode : GoString) (on : Bool)
  | permission (tenantID principalID : UInt64) (permCode : GoString) (allowed : Bool)

def Change.op : Change → Op
  | .issue s call => .issue s call
  | .tokenVersion kind principalID version => .setTokenVersion kind principalID version
  | .enabled tenantID featureCode on => .setEnabled tenantID featureCode on
  | .permission tenantID principalID permCode allowed => .setPermission tenantID principalID permCode allowed

inductive Call where
  | request (r : Request) (route : List Guard)
  | change (c : Change)

def Call.prog (decode : GoString → Option Token) : Call → Prog Op Reply (Option Refusal)
  | .request r route => serve decode r route
  | .change c => .op c.op fun _ => .ret none

abbrev Event (ι : Type) := Entry ι Op Reply Env State

section Runs
variable {ι : Type} [DecidableEq ι]

/-- Where a schedule leads the calls. -/
def world (decode : GoString → Option Token) (calls : ι → Call) (s : State) (sched : List (ι × Env)) :
    Config ι Op Reply Env State (Option Refusal) :=
  (Config.start (fun i => (calls i).prog decode) s).run handle sched

/-- Whoever presents a token under the secret has it from an issuer that has the secret. -/
def Unforged (decode : GoString → Option Token) (calls : ι → Call) (secret : GoString)
    (log : List (Event ι)) : Prop :=
  ∀ a x b, log = a ++ x :: b → ∀ r route token, calls x.caller = .request r route →
    decode (bearerToken r.authorization) = some token → token.key = secret →
      ∃ y ∈ a, ∃ s call, y.act = ⟨.issue s call, .ok token⟩

/-- Request `i` has found, at a step of its own, a token with these claims in time; the token was issued for
the audience before that step. -/
def Issued (svc : TokenService) (a : List (Event ι)) (i : ι) (claims : Claims) : Prop :=
  ∃ a₁ x a₂, a = a₁ ++ x :: a₂ ∧ x.caller = i ∧ ∃ y ∈ a₁, ∃ s call token, y.act = ⟨.issue s call, .ok token⟩ ∧
    claims = call.claims s y.env.now ∧ s.audience = svc.audience ∧
      x.env.now < call.expiry s y.env.now * 10 ^ 9

/-- Request `i` was at the state `P` with a step of its own. -/
def Saw (a : List (Event ι)) (i : ι) (P : State → Prop) : Prop := ∃ x ∈ a, x.caller = i ∧ P x.pre

/-- What the guards of a route vouch for when a request acts with `ctx` after the steps `a`. -/
structure Entitled (secret : GoString) (r : Request) (route : List Guard) (i : ι) (a : List (Event ι))
    (ctx : Context) :
    Prop where
  platformToken : ∀ g, .platformToken g ∈ route → ∃ svc claims, g.tokenSvc = some svc ∧
    ctx.platformClaims = some claims ∧ Obs.principalIDFromContext ctx.request = some claims.principalID ∧
    (svc.secret = secret → Issued svc a i (.platform claims)) ∧
    (g.tokenVersion = true → Saw a i fun s => s.version .platform claims.principalID = claims.tokenVersion)
  tenantToken : ∀ g, .tenantToken g ∈ route → ∃ svc claims, g.tokenSvc = some svc ∧
    ctx.tenantClaims = some claims ∧ Obs.principalIDFromContext ctx.request = some claims.principalID ∧
    Obs.tenantIDFromContext ctx.request = some claims.tenantID ∧
    (svc.secret = secret → Issued svc a i (.tenant claims)) ∧
    (g.tokenVersion = true → Saw a i fun s => s.version .tenant claims.principalID = claims.tokenVersion)
  /-- A platform token opens every feature. -/
  feature : ∀ svc featureCode, .requireFeature svc featureCode ∈ route → ctx.platformClaims.isSome = true ∨
    ∃ claims, ctx.tenantClaims = some claims ∧ Saw a i fun s => s.enabled claims.tenantID featureCode = true
  permission : ∀ authz permCode paramName, .requireTenantPermission authz permCode paramName ∈ route →
    ∃ claims, ctx.tenantClaims = some claims ∧ parseUint64 (r.param (pathParam paramName)) =
      some claims.tenantID ∧
      claims.tenantID ≠ 0 ∧ Saw a i fun s => s.permitted claims.tenantID claims.principalID permCode = true
  /-- A request stands for a principal of one kind only. -/
  one_kind : ctx.platformClaims = none ∨ ctx.tenantClaims = none

variable {decode : GoString → Option Token} {calls : ι → Call} {s : State} {secret : GoString}
  {w : Config ι Op Reply Env State (Option Refusal)} {a b : List (Event ι)} {x : Event ι} {i : ι}

/-- Only a request acts, and only when all guards of its route have passed. -/
theorem passedAll_of_action (hw : w.Sound handle (fun i => (calls i).prog decode) s)
    (hl : w.log = a ++ x :: b)
    {ctx : Context} (hact : x.act = ⟨.action ctx, ()⟩) : ∃ r route, calls x.caller = .request r route ∧
      PassedAll decode r route (history x.caller a) .empty ctx := by
  have hpath := hw.path_split hl
  rw [hact] at hpath
  cases hcall : calls x.caller with
  | change c =>
    rw [hcall] at hpath
    obtain ⟨-, reply, heq⟩ := hpath.single_split
    cases c <;> cases heq
  | request r route =>
    refine ⟨r, route, rfl, ?_⟩
    rw [hcall] at hpath
    cases hpath.bind_split with
    | inl hinside =>
      obtain ⟨es₁, p', hp⟩ := hinside
      have hlookup := (all_checkAll decode r route .empty).of_path hp ⟨.action ctx, ()⟩ (by simp)
      exact hlookup.elim
    | inr hafter =>
      obtain ⟨result, es₁, es₂, hes, hreturns, hrest⟩ := hafter
      cases result with
      | error refusal => exact hrest.ret_split.elim
      | ok ctx' =>
        obtain ⟨rfl, reply, heq⟩ := Prog.Path.single_split hrest
        cases heq
        rw [hes, List.append_nil]
        exact checkAll_returns hreturns

/-- A lookup in the history of a request is a step of the run. -/
theorem saw_of_mem {y : Act} (hexec : Exec handle s a x.pre) (hy : y ∈ history i a) {P : State → Prop}
    (hP : ∀ env pre post, handle env y.1 pre = (y.2, post) → P pre) : Saw a i P := by
  obtain ⟨z, hz, hcaller, hact⟩ := mem_history.mp hy
  have hvalid := hexec.valid hz
  subst hact
  exact ⟨z, hz, hcaller, hP z.env z.pre z.post hvalid⟩

theorem lookup_eq_some {α : Type} {env : Env} {v w : α} (h : env.lookup v = some w) : v = w := by
  unfold Env.lookup at h
  split_ifs at h
  exact Option.some.inj h

theorem key_of_parse {svc : TokenService} {now : ℤ} {token : Token} {kind : Kind} {claims : Claims}
    (h : svc.parse now token kind = .ok claims) : token.key = svc.secret := by
  cases kind with
  | platform =>
    obtain ⟨c, hc, -⟩ := map_eq_ok.mp h
    exact (TokenService.parseToken_eq_ok.mp hc).1
  | tenant =>
    obtain ⟨c, hc, -⟩ := map_eq_ok.mp h
    exact (TokenService.parseToken_eq_ok.mp hc).1
  | stepUp =>
    obtain ⟨c, hc, -⟩ := map_eq_ok.mp h
    exact (TokenService.parseToken_eq_ok.mp hc).1

theorem key_of_issue {svc : TokenService} {now : ℤ} {call : Issuance} {token : Token}
    (h : svc.issue now call = .ok token) : token.key = svc.secret := by
  cases call with
  | platform principalID roleCodes tokenVersion =>
    cases h
    rfl
  | tenant tenantID tenantCode principalID principalType roleCodes tokenVersion actorPrincipalID =>
    cases h
    rfl
  | stepUp principalID scope ttl =>
    simp only [TokenService.issue, TokenService.issueStepUpToken] at h
    split at h
    · cases h
    · cases h
      rfl

/-- A token that is parsed under the secret is one that was issued, as what it was issued. -/
theorem issued_of_parse (hunforged : Unforged decode calls secret w.log) (hexec : Exec handle s a x.pre)
    (hl : w.log = a ++ x :: b) {r : Request} {route : List Guard} (hcall : calls i = .request r route)
    {token : Token}
    (hdecode : decode (bearerToken r.authorization) = some token) {now : ℤ} (hnow : ⟨.now, now⟩ ∈ history i a)
    {svc : TokenService} (hsecret : svc.secret = secret) {kind : Kind} {claims : Claims}
    (hparse : svc.parse now token kind = .ok claims) : Issued svc a i claims := by
  obtain ⟨z, hz, hcaller, hact⟩ := mem_history.mp hnow
  have hread : z.env.now = now := congrArg Prod.fst ((hexec.valid hz).handle hact)
  obtain ⟨a₁, a₂, rfl⟩ := List.append_of_mem hz
  have hsplit : w.log = a₁ ++ z :: (a₂ ++ x :: b) := by
    rw [hl, List.append_assoc, List.cons_append]
  have hkey := key_of_parse hparse
  obtain ⟨y, hy, s', call, hissue⟩ := hunforged a₁ z _ hsplit r route token (by rw [hcaller, hcall]) hdecode
    (hkey.trans hsecret)
  have hvalid := hexec.valid (List.mem_append_left (z :: a₂) hy)
  have hissued : s'.issue y.env.now call = .ok token := congrArg Prod.fst (hvalid.handle hissue)
  have hsame : s'.secret = svc.secret := (key_of_issue hissued).symm.trans hkey
  have hkind : call.kind = kind :=
    Kind.tokenType_injective (TokenService.tokenType_of_parse (TokenService.hasType_of_issue hissued) hparse)
  subst hkind
  obtain ⟨hclaims, haudience, htime, -⟩ := (TokenService.parse_issue hsame hissued).mp hparse
  refine ⟨a₁, z, a₂, rfl, hcaller, y, hy, s', call, token, hissue, hclaims, haudience, ?_⟩
  rw [hread]
  exact htime

/-- In every run, a request that comes to act carries the claims of a token that was issued for this audience
and is in time, not revoked when it was looked up, with the features and the permissions of its route on the
tenant of its path as they stood at steps of its own. -/
theorem admitted_entitled (decode : GoString → Option Token) (calls : ι → Call) (s : State)
    (sched : List (ι × Env))
    {secret : GoString} (hunforged : Unforged decode calls secret (world decode calls s sched).log)
    {a b : List (Event ι)} {x : Event ι} (hl : (world decode calls s sched).log = a ++ x :: b) {ctx : Context}
    (hact : x.act = ⟨.action ctx, ()⟩) :
    ∃ r route, calls x.caller = .request r route ∧ Entitled secret r route x.caller a ctx := by
  have hw : (world decode calls s sched).Sound handle (fun i => (calls i).prog decode) s :=
    Config.run_sound _ _ _ _
  have hexec := hw.exec
  rw [hl] at hexec
  obtain ⟨ha, -, -⟩ := hexec.split
  obtain ⟨r, route, hcall, hpassed⟩ := passedAll_of_action hw hl hact
  obtain ⟨hsourced, -, hguards⟩ := hpassed.spec sourced_empty
  refine ⟨r, route, hcall, ?_, ?_, ?_, ?_, ?_⟩
  · intro g hg
    obtain ⟨es, ctx₁, ctx₂, hsub, hpass, hkeeps⟩ := hguards _ hg
    cases hpass with
    | @platformToken _ _ _ _ svc claims h =>
      obtain ⟨hsvc, ⟨token, now, hdecode, hparse, hnow⟩, hcurrent, soon, hctx⟩ := h
      have hclaims := hkeeps.platform claims (by rw [hctx]; rfl)
      obtain ⟨-, -, -, -, hid⟩ := hsourced.platform claims hclaims
      refine ⟨svc, claims, hsvc, hclaims, hid, fun hsecret => ?_, fun hversion => ?_⟩
      · have hok : svc.parse now token .platform = .ok (.platform claims) :=
          map_eq_ok.mpr ⟨claims, hparse, rfl⟩
        exact issued_of_parse hunforged ha hl hcall hdecode (hsub hnow) hsecret hok
      · exact saw_of_mem ha (hsub (hcurrent hversion)) fun env pre post h =>
          lookup_eq_some (congrArg Prod.fst h)
  · intro g hg
    obtain ⟨es, ctx₁, ctx₂, hsub, hpass, hkeeps⟩ := hguards _ hg
    cases hpass with
    | @tenantToken _ _ _ _ svc claims h =>
      obtain ⟨hsvc, ⟨token, now, hdecode, hparse, hnow⟩, hcurrent, soon, hctx⟩ := h
      have hclaims := hkeeps.tenant claims (by rw [hctx]; rfl)
      obtain ⟨-, -, -, -, hid, htenant⟩ := hsourced.tenant claims hclaims
      refine ⟨svc, claims, hsvc, hclaims, hid, htenant, fun hsecret => ?_, fun hversion => ?_⟩
      · have hok : svc.parse now token .tenant = .ok (.tenant claims) := map_eq_ok.mpr ⟨claims, hparse, rfl⟩
        exact issued_of_parse hunforged ha hl hcall hdecode (hsub hnow) hsecret hok
      · exact saw_of_mem ha (hsub (hcurrent hversion)) fun env pre post h =>
          lookup_eq_some (congrArg Prod.fst h)
  · intro svc featureCode hg
    obtain ⟨es, ctx₁, ctx₂, hsub, hpass, hkeeps⟩ := hguards _ hg
    cases hpass with
    | requireFeature h =>
      cases h with
      | inl hplatform =>
        obtain ⟨claims, hclaims⟩ := Option.isSome_iff_exists.mp hplatform
        exact .inl (by rw [hkeeps.platform claims hclaims]; rfl)
      | inr htenant =>
        obtain ⟨claims, hclaims, henabled⟩ := htenant
        refine .inr ⟨claims, hkeeps.tenant claims hclaims, ?_⟩
        exact saw_of_mem ha (hsub henabled) fun env pre post h => lookup_eq_some (congrArg Prod.fst h)
  · intro authz permCode paramName hg
    obtain ⟨es, ctx₁, ctx₂, hsub, hpass, hkeeps⟩ := hguards _ hg
    cases hpass with
    | @requireTenantPermission _ _ _ _ _ claims hclaims hpath hallowed =>
      obtain ⟨hparse, hne⟩ := Option.filter_eq_some_iff.mp hpath
      refine ⟨claims, hkeeps.tenant claims hclaims, hparse, by simpa using hne, ?_⟩
      exact saw_of_mem ha (hsub hallowed) fun env pre post h => lookup_eq_some (congrArg Prod.fst h)
  · cases hplatform : ctx.platformClaims with
    | none => exact .inl rfl
    | some p =>
      obtain ⟨token, hdecode, hpayload, htype, -⟩ := hsourced.platform p hplatform
      refine .inr (Option.eq_none_iff_forall_ne_some.mpr fun t => ?_)
      exact hsourced.not_both hdecode hpayload htype

end Runs

def sampleRequest : Request := ⟨lit "bearer  t.o.k", fun _ => lit "3"⟩

def sampleRoute : List Guard :=
  [.tenantToken ⟨some sampleService, true, []⟩, .requireFeature true (lit "cargo"),
    .requireTenantPermission true (lit "cargo.read") []]

def sampleToken : Token :=
  ⟨sampleService.secret, (sampleService.tenantClaims 0 3 (lit "acme") 7 (lit "user") none 1 (some 9)).toJson⟩

def sampleDecode (text : GoString) : Option Token := if text = lit "t.o.k" then some sampleToken else none

/-- The token is issued, and then used. -/
def sampleCalls : Bool → Call
  | false => .change (.issue sampleService sampleActAs)
  | true => .request sampleRequest sampleRoute

def sampleState : State := ⟨fun _ _ => 1, fun _ _ => true, fun _ _ _ => true⟩

def sampleSched : List (Bool × Env) :=
  [(false, ⟨0, false⟩), (true, ⟨1, false⟩), (true, ⟨2, false⟩), (true, ⟨3, false⟩), (true, ⟨4, false⟩),
    (true, ⟨5, false⟩), (true, ⟨6, false⟩)]

theorem sampleRequest_entitled : ∃ a x b ctx,
    (world sampleDecode sampleCalls sampleState sampleSched).log = a ++ x :: b ∧ x.act = ⟨.action ctx, ()⟩ ∧
      ∃ r route, sampleCalls x.caller = .request r route ∧
        Entitled sampleService.secret r route x.caller a ctx := by
  have hlog : (world sampleDecode sampleCalls sampleState sampleSched).log = [_, _, _, _, _, _] ++ _ :: [] :=
    rfl
  have hunforged : Unforged sampleDecode sampleCalls sampleService.secret
      (world sampleDecode sampleCalls sampleState sampleSched).log := by
    intro a x b hl r route token hcall hdecode hkey
    have htoken : sampleToken = token := by
      unfold sampleDecode at hdecode
      split_ifs at hdecode
      exact Option.some.inj hdecode
    rw [hlog] at hl
    cases a with
    | nil =>
      cases hl
      cases hcall
    | cons y a =>
      obtain ⟨rfl, -⟩ := List.cons.inj hl
      exact ⟨_, List.mem_cons_self, sampleService, sampleActAs, htoken ▸ rfl⟩
  exact ⟨_, _, _, _, hlog, rfl, admitted_entitled _ _ _ _ hunforged hlog rfl⟩

end SynapseGo.Middleware.Platform
