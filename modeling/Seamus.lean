import Seamus.Library.LittleEndian
import Seamus.Basic
import Seamus.Utf8
import Seamus.Index
import Seamus.Library.BinarySearch
import Seamus.Library.SegmentSwaps
import Seamus.Sort
import Seamus.Dictionary
import Seamus.LoadedIndex
import Seamus.Isr
import Seamus.PostingRoundTrip
import Seamus.ChunkLayout
import Seamus.Library.Trie
import Seamus.Expressions
import Seamus.QueryTree
import Seamus.UrlStore
import Seamus.Library.Interleaving
import Seamus.UrlStoreFile
import Seamus.AnchorTable
import Seamus.UrlStoreWorkers
import Seamus.UrlSnapshot
import Seamus.UrlDiscovery
import Seamus.AnchorFrequency
import Seamus.AnchorCap
import Seamus.StoreCapacity
import Seamus.UrlStoreRoundTrip
import Seamus.DomainCarousel
import Seamus.QueryValidity
import Seamus.IndexFile
import Seamus.PostingInvariant
import Seamus.ChunkFiles
import Seamus.QuickSort
import Seamus.RobotsTxt
import Seamus.Library.Priority
import Seamus.RobotsPriority
import Seamus.HtmlParser
import Seamus.Library.Lines
import Seamus.WordSplitting
import Seamus.LinkStream
import Seamus.Library.TopK
import Seamus.QueryResults
import Seamus.JoinableThreadPool
import Seamus.Library.Streams
import Seamus.Rpc
import Seamus.RpcQueryHandler
import Seamus.EmptyDirectives
import Seamus.Library.Cursor
import Seamus.QueryGrammar
import Seamus.PostStreams
import Seamus.DefaultQuery
import Seamus.PhraseQuery
import Seamus.CheckedReads
import Seamus.TruncatedChunk
import Seamus.WordSeparation
import Seamus.QueryIsr
import Seamus.ChunkQuery
import Seamus.RobotsPatterns
import Seamus.RobotsLines
import Seamus.Library.LinkedList
import Seamus.Library.Recency
import Seamus.RobotsCache
import Seamus.RankedBuffer
import Seamus.FrontierFiles
import Seamus.Ranker
import Seamus.RankedQuery
import Seamus.UrlIdentity
import Seamus.UrlRewrites
import Seamus.Deque
import Seamus.SortAccesses
import Seamus.TagLookup
import Seamus.VarintSizes
import Seamus.WordDistance
import Seamus.Library.OpenAddressing
import Seamus.UnorderedMap
import Seamus.MapRefinement
import Seamus.ReadRequest
import Seamus.FrontierBuckets
import Seamus.ResultsPage
import Seamus.CheckedParser
import Seamus.Library.Faults
import Seamus.ParserBounds
import Seamus.LinkPushes
import Seamus.QueryLeaves
import Seamus.Library.Aligned
import Seamus.QueryEngine
import Seamus.ParserCalls
import Seamus.OutputBuffers
import Seamus.BufferBounds
import Seamus.IndexedDocuments
import Seamus.SearchedDocuments
import Seamus.SearchedPages
import Seamus.ThreadPool
import Seamus.QueryHandler
import Seamus.CrawlerWorkers
import Seamus.UrlBuffers
import Seamus.UrlBatches
import Seamus.HandleQuery
import Seamus.HandleQueryReturns
import Seamus.IndexDirectory
import Seamus.LoadedDocuments
import Seamus.HttpsGet
