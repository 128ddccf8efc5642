import P99.Toolchains
import P99.RankRefinement
import P99.PercentileAgreement
import P99.PercentileRefinement
import P99.Fallbacks
import P99.BucketCalls
import P99.PercentileOrder
import P99.CallBounds
import P99.CompactRefinement
import P99.PushOrder
import P99.PushDuration
import P99.ExactInterpolation
import P99.Library.FloatingPoint
import P99.Binary64
import P99.PercentileDominance
import P99.RoundingError
import P99.EvenLoad
import P99.Facade
import P99.PercentileArrays
import P99.RankInterlacing
import P99.NamedLevels
import P99.Builds
