import AiCoreStack.Foundation.Alignment
import AiCoreStack.Foundation.Champion
import AiCoreStack.Foundation.Channel
import AiCoreStack.Foundation.CheckSum
import AiCoreStack.Foundation.CheckedBuffers
import AiCoreStack.Foundation.Critical
import AiCoreStack.Foundation.Delimiter
import AiCoreStack.Foundation.Disk
import AiCoreStack.Foundation.ExponentialFamily
import AiCoreStack.Foundation.Gather
import AiCoreStack.Foundation.Greedy
import AiCoreStack.Foundation.Groups
import AiCoreStack.Foundation.Intervals
import AiCoreStack.Foundation.InverseCdf
import AiCoreStack.Foundation.Json
import AiCoreStack.Foundation.JsonWriter
import AiCoreStack.Foundation.Knapsack
import AiCoreStack.Foundation.Linearizable
import AiCoreStack.Foundation.Outcome
import AiCoreStack.Foundation.Patch
import AiCoreStack.Foundation.Pullback
import AiCoreStack.Foundation.Rows
import AiCoreStack.Foundation.Scalar
import AiCoreStack.Foundation.Scatter
import AiCoreStack.Foundation.Seams
import AiCoreStack.Foundation.Search
import AiCoreStack.Foundation.StableSort
import AiCoreStack.Foundation.Template
import AiCoreStack.Foundation.UnionFind
import AiCoreStack.Foundation.Utf8
import AiCoreStack.Foundation.Words
import AiCoreStack.Markdown.DocxText
import AiCoreStack.Markdown.FencedCode
import AiCoreStack.Markdown.FrontmatterSafety
import AiCoreStack.Markdown.HtmlContainers
import AiCoreStack.Markdown.HtmlText
import AiCoreStack.Markdown.HwpxText
import AiCoreStack.Markdown.ListIndent
import AiCoreStack.Markdown.MdText
import AiCoreStack.Markdown.Media
import AiCoreStack.Markdown.Ooxml
import AiCoreStack.Markdown.PdfText
import AiCoreStack.Markdown.PptxText
import AiCoreStack.Markdown.Registry
import AiCoreStack.Markdown.RowAgreement
import AiCoreStack.Markdown.TableReading
import AiCoreStack.Markdown.TokenCount
import AiCoreStack.Markdown.Xlsx
import AiCoreStack.Ocr.CtcDecode
import AiCoreStack.Ocr.FrameBounds
import AiCoreStack.Ocr.LineOrder
import AiCoreStack.Ocr.Nms
import AiCoreStack.Ocr.ReadingOrder
import AiCoreStack.Ocr.Sampler
import AiCoreStack.Ocr.Srt
import AiCoreStack.Ocr.Temporal
import AiCoreStack.Pii.Account
import AiCoreStack.Pii.CheckDigit
import AiCoreStack.Pii.ContextFree
import AiCoreStack.Pii.ContextWindow
import AiCoreStack.Pii.Corpus
import AiCoreStack.Pii.Evidence
import AiCoreStack.Pii.ExactImage
import AiCoreStack.Pii.MalformedNumeral
import AiCoreStack.Pii.MaskFrame
import AiCoreStack.Pii.MaskRoundTrip
import AiCoreStack.Pii.NormalizeLimits
import AiCoreStack.Pii.NumeralReading
import AiCoreStack.Pii.Offsets
import AiCoreStack.Pii.PrefixSearch
import AiCoreStack.Pii.Reversible
import AiCoreStack.Pii.SentenceEnding
import AiCoreStack.Pii.Separate
import AiCoreStack.Pii.SeparatorRuns
import AiCoreStack.Pii.SpanLaws
import AiCoreStack.Pii.StepwiseLookup
import AiCoreStack.Pii.SynthRoundTrip
import AiCoreStack.Ranking.ArrivalOrder
import AiCoreStack.Ranking.Audit
import AiCoreStack.Ranking.CostGuarantee
import AiCoreStack.Ranking.CountGuarantee
import AiCoreStack.Ranking.CoverageGains
import AiCoreStack.Ranking.CutMargin
import AiCoreStack.Ranking.HeapOrder
import AiCoreStack.Ranking.PlainAddition
import AiCoreStack.Ranking.PoolBound
import AiCoreStack.Ranking.TailMass
import AiCoreStack.Ranking.TwoStage
import AiCoreStack.Scholar.ArxivOai
import AiCoreStack.Scholar.ArxivQuery
import AiCoreStack.Scholar.BruteForce
import AiCoreStack.Scholar.CacheKey
import AiCoreStack.Scholar.CanonicalUrl
import AiCoreStack.Scholar.CompletionOrder
import AiCoreStack.Scholar.DedupKeys
import AiCoreStack.Scholar.RankFormula
import AiCoreStack.Scholar.RateLimit
import AiCoreStack.Scholar.SharedIdentifiers
import AiCoreStack.Scholar.StripHtml
import AiCoreStack.Serving.AttentionBuffers
import AiCoreStack.Serving.ChatOrder
import AiCoreStack.Serving.ChatStream
import AiCoreStack.Serving.GenerationRuns
import AiCoreStack.Serving.GpuProduct
import AiCoreStack.Serving.ManifestWrites
import AiCoreStack.Serving.QuietCallbacks
import AiCoreStack.Serving.Qwen3Incremental
import AiCoreStack.Serving.Sampling
import AiCoreStack.Serving.SessionCoherence
import AiCoreStack.Serving.SharedSession
import AiCoreStack.Serving.StopStrings
