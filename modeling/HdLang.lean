import HdLang.Alloc.Retention
import HdLang.Base.SliceSort
import HdLang.Cache.Entry
import HdLang.Cache.Safety
import HdLang.Channel.DequeRuns
import HdLang.Channel.Safety
import HdLang.Cli.Fix
import HdLang.Collections.HeapOrder
import HdLang.Cycle.Candidates
import HdLang.Cycle.Safety
import HdLang.Deps.Order
import HdLang.Deps.Record
import HdLang.Deps.Tags
import HdLang.Diag.Safety
import HdLang.Digest.Stream
import HdLang.Drift.Safety
import HdLang.Encoding.Canonical
import HdLang.Grant.Hosts
import HdLang.Grant.Sandbox
import HdLang.Hash.Stream
import HdLang.Journal.Lossless
import HdLang.Num.FloatRem
import HdLang.Num.Writing
import HdLang.Pool.Deps
import HdLang.Random.Shuffle
import HdLang.Regexp.Limit
import HdLang.Scalars.Exact
import HdLang.Sched.Slices
import HdLang.Search.Backward
import HdLang.Std.MapJoin
import HdLang.Std.Paths
import HdLang.StdJson.Ordered
import HdLang.StdJson.RoundTrip
import HdLang.Tir.Place
import HdLang.Types.CopyRow
import HdLang.Types.OwnerLookup
import HdLang.Types.Refs
import HdLang.Types.TraitValue
import HdLang.Types.Trial
import HdLang.UniqMap.Safety
import HdLang.Wasm.ZeroAgree
