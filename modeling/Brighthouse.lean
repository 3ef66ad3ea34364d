import Brighthouse.Compress.RangeCoderRoundTrip
import Brighthouse.Core.HistogramIntersection
import Brighthouse.Core.RoughLike
import Brighthouse.Core.RoughBetweenText
import Brighthouse.Core.RoughNumeric
import Brighthouse.Core.RCNumCompare
import Brighthouse.Core.RCDateTimeDays
import Brighthouse.Core.LookupCondition
import Brighthouse.Core.CheckSetCondition
import Brighthouse.Core.AggregatorSum
import Brighthouse.Core.LikeCondition
import Brighthouse.Core.DoubleEpsilon
import Brighthouse.Core.PackOrderer
import Brighthouse.Core.FilterEqual
import Brighthouse.Core.FTreeSound
import Brighthouse.Core.ValueSetText
import Brighthouse.Core.EncoderText
import Brighthouse.Core.ColumnBinEncoderSound
import Brighthouse.DomainInject.IPv4DecomposerSound
import Brighthouse.Core.DescTreeExtract
import Brighthouse.Core.MIUpdatingIteratorSpec
import Brighthouse.Core.RCAttrCompareSpec
import Brighthouse.Core.PackrowWalkSpec
import Brighthouse.Core.JoinerHashAgrees
import Brighthouse.Core.SorterLimit
import Brighthouse.Core.SorterMultiPassExact
import Brighthouse.Loader.ParsingStrategyTextSpec
